import HyperKitty.Lib.Buffer
import HyperKitty.Lib.LittleEndian

namespace Exec

variable {ε α β : Type}

/-- The code has no errors of its own, and it does not run out of fuel. -/
def OnlyPanics (x : Exec ε α) : Prop := (∃ a, x = .ok a) ∨ x = .error .panic

@[simp] theorem onlyPanics_ok (a : α) : OnlyPanics (.ok a : Exec ε α) := .inl ⟨a, rfl⟩

@[simp] theorem onlyPanics_panic : OnlyPanics (.error .panic : Exec ε α) := .inr rfl

theorem OnlyPanics.bind {x : Exec ε α} {f : α → Exec ε β} (hx : OnlyPanics x)
    (hf : ∀ a, OnlyPanics (f a)) : OnlyPanics (x >>= f) := by
  rcases hx with ⟨a, rfl⟩ | rfl
  · exact hf a
  · exact onlyPanics_panic

variable {bs : List UInt8} {start stop offset : Nat}

theorem onlyPanics_slice : OnlyPanics (Bytes.slice bs start stop : Exec ε _) := by
  unfold Bytes.slice
  split
  · exact onlyPanics_ok _
  · exact onlyPanics_panic

theorem onlyPanics_readArray {n : Nat} : OnlyPanics (Bytes.readArray n bs offset : Exec ε _) := by
  unfold Bytes.readArray
  split
  · exact onlyPanics_ok _
  · exact onlyPanics_panic

theorem onlyPanics_readLe {γ : Type} [Bytes.FixedWidth γ] :
    OnlyPanics (Bytes.readLe γ bs offset : Exec ε _) :=
  onlyPanics_readArray.bind fun _ => onlyPanics_ok _

theorem onlyPanics_store {block : List UInt8} :
    OnlyPanics (Buffer.store block offset bs : Exec ε _) := by
  unfold Buffer.store
  split
  · exact onlyPanics_ok _
  · exact onlyPanics_panic

end Exec
