import PostfixLambda.Text.Bytes

/-! Collected bytes: a text to which bytes are added at the end, one at a time and at no cost, and whose length is at
    hand. What it stands for is the text `toBytes`; each operation is described by what it does to that text. -/

namespace PostfixLambda

/-- Bytes collected so far, the latest first, and their number. -/
structure Collected where
  reversed : Bytes
  size : Nat
  size_eq : size = reversed.length
  deriving DecidableEq, Repr

namespace Collected

/-- Nothing collected yet. -/
def empty : Collected := ⟨[], 0, rfl⟩

/-- The text collected. -/
def toBytes (c : Collected) : Bytes := c.reversed.reverse

/-- Whether nothing is collected yet. -/
def isEmpty (c : Collected) : Bool := c.reversed.isEmpty

/-- One more byte. -/
def push (c : Collected) (b : UInt8) : Collected := ⟨b :: c.reversed, c.size + 1, by simp [c.size_eq]⟩

/-- More bytes. -/
def append (c : Collected) (p : Bytes) : Collected := p.foldl push c

/-- The bytes of a text. -/
def ofBytes (p : Bytes) : Collected := empty.append p

/-- Drops all that is collected. -/
def clear (_ : Collected) : Collected := empty

/-- The last byte collected, if there is one. -/
def last? (c : Collected) : Option UInt8 := c.reversed.head?

@[simp] theorem toBytes_empty : empty.toBytes = [] := rfl

@[simp] theorem toBytes_push (c : Collected) (b : UInt8) : (c.push b).toBytes = c.toBytes ++ [b] := by
  simp [toBytes, push]

@[simp] theorem toBytes_append (c : Collected) (p : Bytes) : (c.append p).toBytes = c.toBytes ++ p := by
  induction p generalizing c with
  | nil => simp [append]
  | cons b rest ih =>
    have h := ih (c.push b)
    simp only [append, toBytes_push, List.foldl_cons] at h ⊢
    simp [h]

@[simp] theorem toBytes_ofBytes (p : Bytes) : (ofBytes p).toBytes = p := by
  simp [ofBytes]

@[simp] theorem toBytes_clear (c : Collected) : c.clear.toBytes = [] := rfl

@[simp] theorem last?_eq (c : Collected) : c.last? = c.toBytes.getLast? := by
  simp [last?, toBytes]

theorem size_eq_length (c : Collected) : c.size = c.toBytes.length := by
  simp [toBytes, c.size_eq]

theorem isEmpty_iff (c : Collected) : c.isEmpty ↔ c.toBytes = [] := by
  simp [isEmpty, toBytes]

end Collected

end PostfixLambda
