/-
Environments and their forks.

A fork may share arithmetic with its parent: what it assigns in arithmetic is then
assigned in the parent as well, and in the parent's parent if the parent shares in
its turn. A family numbers environments in the order they were forked, so a parent has
a smaller number than its fork.
-/
import Shell.Environment

set_option autoImplicit false

namespace Shell

/-- Environments with the number of the parent that each of them shares arithmetic
with. -/
structure Family where
  members : Array (Environment × Option Nat)

namespace Family

/-- The family of one environment. -/
def ofEnvironment (env : Environment) : Family := ⟨#[(env, none)]⟩

def get (family : Family) (index : Nat) : Environment :=
  match family.members[index]? with
  | some (env, _) => env
  | none => {}

/-- Changes one member. -/
def modify (family : Family) (index : Nat) (f : Environment → Environment) : Family :=
  ⟨family.members.modify index fun (env, parent) => (f env, parent)⟩

/-- Assigns in a member and in those it shares arithmetic with, following at most `n`
parents. -/
def setArithmeticFrom (name value : String) : Nat → Nat → Family → Family
  | 0, index, family => family.modify index fun env => env.set name value
  | n + 1, index, family =>
    let family := family.modify index fun env => env.set name value
    match family.members[index]? with
    | some (_, some parent) => setArithmeticFrom name value n parent family
    | _ => family

/-- An arithmetic assignment in a member. -/
def setArithmetic (family : Family) (index : Nat) (name value : String) : Family :=
  setArithmeticFrom name value family.members.size index family

/-- Adds a fork of a member. -/
def fork (family : Family) (index : Nat) (shareArithmetic : Bool) : Family :=
  ⟨family.members.push ((family.get index).fork, if shareArithmetic then some index else none)⟩

end Family

end Shell
