import Treewalk.Value

/-!
# Bindings

The names that one scope binds, each with its value. A name is bound at most once;
`get?_insert` says what binding a name does to every lookup.
-/

namespace Treewalk

/-- Names and their values, in the order in which they were first bound. -/
structure Bindings where
  entries : List (String × Value)
  deriving DecidableEq, Inhabited

namespace Bindings

def empty : Bindings := ⟨[]⟩

/-- The value of a name, in a list of entries. -/
def find? (name : String) : List (String × Value) → Option Value
  | [] => none
  | (key, value) :: rest => if key = name then some value else find? name rest

/-- Binds a name again where it is bound, else behind the other entries. -/
def put (name : String) (value : Value) : List (String × Value) → List (String × Value)
  | [] => [(name, value)]
  | (key, old) :: rest =>
    if key = name then (key, value) :: rest else (key, old) :: put name value rest

def get? (b : Bindings) (name : String) : Option Value :=
  find? name b.entries

def insert (b : Bindings) (name : String) (value : Value) : Bindings :=
  ⟨put name value b.entries⟩

def binds (b : Bindings) (name : String) : Bool :=
  (b.get? name).isSome

theorem find?_put (name key : String) (value : Value) (entries : List (String × Value)) :
    find? key (put name value entries) =
      if name = key then some value else find? key entries := by
  induction entries with
  | nil => simp [put, find?]
  | cons entry rest ih =>
    obtain ⟨k, old⟩ := entry
    by_cases hn : k = name
    · subst hn
      by_cases hk : k = key <;> simp [put, find?, hk]
    · by_cases hk : k = key
      · subst hk
        simp [put, find?, hn, Ne.symm hn]
      · simp [put, find?, hn, hk, ih]

@[simp] theorem get?_empty (name : String) : empty.get? name = none := rfl

@[simp] theorem get?_insert (b : Bindings) (name key : String) (value : Value) :
    (b.insert name value).get? key = if name = key then some value else b.get? key :=
  find?_put name key value b.entries

@[simp] theorem binds_insert (b : Bindings) (name key : String) (value : Value) :
    (b.insert name value).binds key = (decide (name = key) || b.binds key) := by
  rw [binds, get?_insert]
  by_cases h : name = key <;> simp [h, binds]

end Bindings

end Treewalk
