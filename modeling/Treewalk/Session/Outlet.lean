/-!
# Outlets

Where a prompt writes to: standard output, which printed values go to as well, or a handle of
its own. A handle takes only so many bytes and flushes. A write that does not fit fails, but
what fits of it is taken.
-/

namespace Treewalk

/-- A writer with limits, none where there is `none`. -/
structure Handle where
  /-- The bytes taken, the latest first. -/
  taken : List UInt8
  /-- The bytes that still fit. -/
  room : Option Nat
  /-- The flushes that still succeed. -/
  flushes : Option Nat
  deriving DecidableEq, Inhabited

namespace Handle

def unlimited : Handle := ⟨[], none, none⟩

/-- All bytes taken. -/
def bytes (h : Handle) : List UInt8 :=
  h.taken.reverse

/-- Takes the bytes that fit. The write fails if there are more. -/
def write (bytes : List UInt8) (h : Handle) : Bool × Handle :=
  match h.room with
  | none => (true, { h with taken := bytes.reverse ++ h.taken })
  | some room =>
    (bytes.length ≤ room,
      { h with
        taken := (bytes.take room).reverse ++ h.taken
        room := some (room - bytes.length) })

def flush (h : Handle) : Bool × Handle :=
  match h.flushes with
  | none => (true, h)
  | some 0 => (false, h)
  | some (n + 1) => (true, { h with flushes := some n })

/-- A write appends what there is room for. -/
theorem bytes_write (bytes : List UInt8) (h : Handle) :
    (h.write bytes).2.bytes = h.bytes ++ (h.room.elim bytes fun room => bytes.take room) := by
  unfold write
  split <;> simp_all [Handle.bytes]

end Handle

/-- Where the prompt writes to. -/
inductive Outlet
  | standardOutput
  | handle (h : Handle)
  deriving DecidableEq

end Treewalk
