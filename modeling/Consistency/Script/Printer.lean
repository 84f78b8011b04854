import Consistency.Script
import Consistency.Term.Printer

/-!
# The written form of scripts

One command a line, without a line feed after the last one.
-/

set_option autoImplicit false

namespace Consistency

def ValueSort.render : ValueSort → String
  | .bool => "Bool"
  | .int => "Int"
  | .uninterpreted name => name

def Command.render : Command → String
  | .setLogic logic => parens ["set-logic", logic]
  | .setOption key value => parens ["set-option", ":" ++ key, value]
  | .declareConst name sort => parens ["declare-const", name, sort.render]
  | .declareFun name params result =>
    parens ["declare-fun", name, parens (params.map ValueSort.render), result.render]
  | .defineFun name params result body =>
    parens ["define-fun", name, parens (params.map fun p => parens [p.1, p.2.render]),
      result.render, body.render]
  | .assert t => parens ["assert", t.render]
  | .checkSat => "(check-sat)"
  | .getModel => "(get-model)"
  | .getValue ts => parens ["get-value", parens (ts.map Term.render)]
  | .push n => parens ["push", toString n]
  | .pop n => parens ["pop", toString n]
  | .comment text => ";; " ++ text
  | .exit => "(exit)"

def Script.render (s : Script) : String := "\n".intercalate (s.commands.map Command.render)

end Consistency
