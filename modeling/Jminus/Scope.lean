import Jminus.Ty

/-!
Names in nested scopes, and the slots of locals.

A name that is visible cannot be declared again, not even in an inner scope. Slots are handed out
in order and never a second time: leaving a scope forgets its names and keeps its slots.
-/
namespace Jminus

/-- A declared variable and the slot it lives in. -/
structure Local where
  name : String
  type : Ty
  slot : Nat
  deriving DecidableEq, Repr

structure Env where
  /-- The open scopes, innermost first. -/
  scopes : List (List Local) := [[]]
  /-- How many slots have been handed out. -/
  slots : Nat := 0
  deriving DecidableEq, Repr

namespace Env

def get? (env : Env) (name : String) : Option Local :=
  env.scopes.flatten.find? (·.name == name)

def allocate (env : Env) : Nat × Env := (env.slots, { env with slots := env.slots + 1 })

def bind (env : Env) (v : Local) : Env :=
  { env with
    scopes :=
      match env.scopes with
      | scope :: outer => (v :: scope) :: outer
      | [] => [[v]] }

/-- A new local in the innermost scope, with the next slot. -/
def add (env : Env) (name : String) (type : Ty) : Local × Env :=
  let v : Local := { name, type, slot := env.slots }
  (v, env.allocate.2.bind v)

/-- Declares a name in the innermost scope, unless it is visible already. -/
def define (env : Env) (name : String) (type : Ty) : Option (Local × Env) :=
  if (env.get? name).isSome then none else some (env.add name type)

def enter (env : Env) : Env := { env with scopes := [] :: env.scopes }

def leave (env : Env) : Env := { env with scopes := env.scopes.tail }

/-- The outermost scope stays open. -/
def leave? (env : Env) : Option Env :=
  if env.scopes.length ≤ 1 then none else some env.leave

end Env

end Jminus
