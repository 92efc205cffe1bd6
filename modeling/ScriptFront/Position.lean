/-! Places in an input: an offset counted in characters, tagged with the name of
the input. Offsets are stored as 32-bit words, so they are exact on inputs of
fewer than `2 ^ 32` characters and wrap beyond that. -/

namespace ScriptFront

structure Position where
  offset : UInt32
  file : String
deriving DecidableEq, Repr, Inhabited

/-- The half-open stretch of an input from `start` up to `stop`. -/
structure Span where
  start : Position
  stop : Position
deriving DecidableEq, Repr, Inhabited

namespace Position

def ofNat (offset : Nat) (file : String) : Position := ⟨UInt32.ofNat offset, file⟩

@[simp] theorem ofNat_file (offset : Nat) (file : String) :
    (Position.ofNat offset file).file = file := rfl

theorem ofNat_offset_toNat (offset : Nat) (file : String) (small : offset < UInt32.size) :
    (Position.ofNat offset file).offset.toNat = offset := by
  simpa [Position.ofNat] using Nat.mod_eq_of_lt small

end Position

namespace Span

def between (first last : Nat) (file : String) : Span :=
  ⟨Position.ofNat first file, Position.ofNat last file⟩

@[simp] theorem between_start (first last : Nat) (file : String) :
    (between first last file).start = Position.ofNat first file := rfl

@[simp] theorem between_stop (first last : Nat) (file : String) :
    (between first last file).stop = Position.ofNat last file := rfl

end Span

end ScriptFront
