import Consistency.Cnf.Derived
import Std.Data.TreeSet.Basic
import Std.Data.TreeSet.AdditionalOperations

/-!
# Priorities

The variables that a search may choose from, most active ones first. A variable
is active if it took part in conflicts, late ones counting more.
-/

set_option autoImplicit false

namespace Consistency

structure Priority where
  vars : Nat
  activity : Array Nat
  /-- How much a conflict counts. -/
  weight : Nat
  /-- For a variable, the last conflict that was counted. -/
  counted : Array Nat
  /-- Activities together with their variables. -/
  queue : Std.TreeSet Nat compare
  /-- Whether a variable is in the queue. -/
  queued : Array Bool

namespace Priority

def key (vars v activity : Nat) : Nat := activity * (vars + 1) + v

def queueOf (vars : Nat) (activity : Array Nat) (members : List Nat) : Std.TreeSet Nat compare :=
  members.foldl (fun q v => q.insert (key vars v (activity.getD v 0))) ∅

def initial (vars : Nat) : Priority where
  vars := vars
  activity := Array.replicate vars 0
  weight := 1024
  counted := Array.replicate vars 0
  queue := queueOf vars #[] (List.range vars)
  queued := Array.replicate vars true

def insert (o : Priority) (v : Nat) : Priority :=
  if o.queued.getD v true then o
  else
    let k := key o.vars v (o.activity.getD v 0)
    { o with queue := o.queue.insert k, queued := o.queued.setIfInBounds v true }

def top? (o : Priority) : Option Nat := o.queue.max?.map fun k => k % (o.vars + 1)

def erase (o : Priority) (v : Nat) : Priority :=
  let k := key o.vars v (o.activity.getD v 0)
  { o with queue := o.queue.erase k, queued := o.queued.setIfInBounds v false }

def count (conflict : Nat) (o : Priority) (v : Nat) : Priority :=
  if o.counted.getD v 0 == conflict then o
  else
    let before := o.activity.getD v 0
    let after := before + o.weight
    let o := { o with
      activity := o.activity.setIfInBounds v after
      counted := o.counted.setIfInBounds v conflict }
    if o.queued.getD v false then
      { o with queue := (o.queue.erase (key o.vars v before)).insert (key o.vars v after) }
    else o

def rescale (o : Priority) : Priority :=
  let activity := o.activity.map fun a => a >>> 30
  let members := (List.range o.vars).filter fun v => o.queued.getD v false
  { o with
    activity := activity
    weight := o.weight >>> 30
    queue := queueOf o.vars activity members }

def age (o : Priority) : Priority :=
  let o := { o with weight := o.weight + o.weight / 16 }
  if o.weight < Nat.pow 2 36 then o else o.rescale

def refill (o : Priority) : Priority :=
  { o with
    queue := queueOf o.vars o.activity (List.range o.vars)
    queued := Array.replicate o.vars true }

end Priority
end Consistency
