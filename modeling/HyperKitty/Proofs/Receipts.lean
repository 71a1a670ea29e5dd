import HyperKitty.Ere.Receipt
import HyperKitty.Lib.Separator

namespace HyperKitty.Ere

open Separator

variable {sha256 : List UInt8 → Hash} {artifactId artifact intent : String}
variable {artifactId' artifact' intent' : String} {p1 p2 p3 p4 : Bool} {r r' : EreReceipt}

/-- A receipt is issued exactly when every gate has passed. -/
theorem computeP5_ok_iff :
    computeP5 sha256 artifactId artifact intent p1 p2 p3 p4 = .ok r ↔
      (p1 = true ∧ p2 = true ∧ p3 = true ∧ p4 = true) ∧
        r = ⟨sha256 (preimage artifactId artifact intent true true true true), true, true, true,
          true, artifactId, sha256 (asBytes artifact)⟩ := by
  unfold computeP5
  cases p1 <;> cases p2 <;> cases p3 <;> cases p4 <;> simp [eq_comm]

theorem computeP5_verify (h : computeP5 sha256 artifactId artifact intent p1 p2 p3 p4 = .ok r) :
    r.verify = true ∧ r.gateStatus = (true, true, true, true) ∧ r.artifactId = artifactId := by
  obtain ⟨-, rfl⟩ := computeP5_ok_iff.mp h
  exact ⟨rfl, rfl, rfl⟩

theorem computeP5_failed (h : ¬ (p1 = true ∧ p2 = true ∧ p3 = true ∧ p4 = true)) :
    computeP5 sha256 artifactId artifact intent p1 p2 p3 p4 = .error .proofFailed := by
  unfold computeP5
  cases p1 <;> cases p2 <;> cases p3 <;> cases p4 <;> simp_all

/-- The three texts enter the hash joined by `||`, and nothing else of them does. -/
theorem preimage_eq_iff :
    preimage artifactId artifact intent true true true true =
        preimage artifactId' artifact' intent' true true true true ↔
      join '|' artifactId.toList intent.toList artifact.toList =
        join '|' artifactId'.toList intent'.toList artifact'.toList := by
  have hjoin : ∀ i a n : String, (i ++ "||" ++ n ++ "||" ++ a).toList =
      join '|' i.toList n.toList a.toList := by
    intro i a n
    simp [join]
  rw [preimage, preimage, List.append_left_inj, List.append_left_inj, ← hjoin, ← hjoin,
    String.toList_inj]
  simp only [← asBytes_append]
  exact asBytes_inj

/-- The engine has issued the receipt for the artifact. -/
def Issued (sha256 : List UInt8 → Hash) (artifactId artifact intent : String) (r : EreReceipt) :
    Prop :=
  ∃ p1 p2 p3 p4, computeP5 sha256 artifactId artifact intent p1 p2 p3 p4 = .ok r

theorem issued_iff : Issued sha256 artifactId artifact intent r ↔
    r = ⟨sha256 (preimage artifactId artifact intent true true true true), true, true, true,
      true, artifactId, sha256 (asBytes artifact)⟩ := by
  constructor
  · intro h
    obtain ⟨p1, p2, p3, p4, hok⟩ := h
    exact (computeP5_ok_iff.mp hok).2
  · intro h
    exact ⟨true, true, true, true, computeP5_ok_iff.mpr ⟨⟨rfl, rfl, rfl, rfl⟩, h⟩⟩

/-- Receipts with the hash of this one are for the same id, intent and artifact. -/
def Binds (sha256 : List UInt8 → Hash) (artifactId artifact intent : String) : Prop :=
  ∀ artifactId' artifact' intent' r r',
    Issued sha256 artifactId artifact intent r → Issued sha256 artifactId' artifact' intent' r' →
      r.hash = r'.hash →
        artifactId = artifactId' ∧ intent = intent' ∧ artifact = artifact'

/-- The receipt binds its inputs exactly when the `||` that were put between them
are the only ones in the joined text. -/
theorem binds_iff_separated (hsha : sha256.Injective) (artifactId artifact intent : String) :
    Binds sha256 artifactId artifact intent ↔
      Separated '|' artifactId.toList intent.toList artifact.toList := by
  constructor
  · intro h
    apply separated_iff.mpr
    intro u v w he
    have hpre : preimage artifactId artifact intent true true true true =
        preimage (.ofList u) (.ofList w) (.ofList v) true true true true := by
      rw [preimage_eq_iff]
      simpa using he.symm
    obtain ⟨hu, hv, hw⟩ := h (.ofList u) (.ofList w) (.ofList v) _ _ (issued_iff.mpr rfl)
      (issued_iff.mpr rfl) (congrArg sha256 hpre)
    rw [hu, hv, hw]
    simp
  · intro h artifactId' artifact' intent' r r' hr hr' hhash
    rw [issued_iff.mp hr, issued_iff.mp hr'] at hhash
    have hjoin := preimage_eq_iff.mp (hsha hhash)
    obtain ⟨hu, hv, hw⟩ := h.unique hjoin
    exact ⟨String.toList_inj.mp hu, String.toList_inj.mp hv, String.toList_inj.mp hw⟩

/-- The hash that keeps the whole text takes the place of SHA-256. -/
theorem binds_iff_separated_plain :
    Function.Injective Hash.mk ∧ (Binds Hash.mk "artifact1" "same_code" "intent1" ↔
      Separated '|' "artifact1".toList "intent1".toList "same_code".toList) := by
  have hmk : Function.Injective Hash.mk := fun _ _ h => by simpa using h
  exact ⟨hmk, binds_iff_separated hmk "artifact1" "same_code" "intent1"⟩

/-- The id `a||b` with the intent `c` and the id `a` with the intent `b||c` share
the hash of their receipts, whatever the hash function is. -/
theorem binds_not_always :
    ¬ ∀ sha256 : List UInt8 → Hash, sha256.Injective → ∀ artifactId artifact intent,
      Binds sha256 artifactId artifact intent := by
  intro h
  have hb := h Hash.mk (fun _ _ h => by simpa using h) "a||b" "x" "c"
  have hpre : preimage "a||b" "x" "c" true true true true =
      preimage "a" "x" "b||c" true true true true := by
    rw [preimage_eq_iff]
    simp [join]
  have heq := hb "a" "x" "b||c" _ _ (issued_iff.mpr rfl) (issued_iff.mpr rfl)
    (congrArg Hash.mk hpre)
  simp at heq

end HyperKitty.Ere
