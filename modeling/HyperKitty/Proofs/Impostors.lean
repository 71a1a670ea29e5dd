import HyperKitty.Isomorphism.Layers
import HyperKitty.Sla.Exact

namespace HyperKitty.Isomorphism

open Exec Checked Qlg Sla

variable {b : Build} {t : Target} {l : Ledger} {g : Glyph}

theorem qlgToSla_eq_some : qlgToSla b (qraToQlg g) = .ok (some l) ↔ l = image g := by
  rw [qlgToSla_qraToQlg, Except.ok.injEq, Option.some.injEq]
  exact eq_comm

/-- A balanced ledger under the common omega is taken for the glyph that the low bits of its
debit less one index. -/
theorem slaToQra_eq_some : slaToQra b t l = .ok (some g) ↔
    l.isBalanced b = .ok true ∧ l.omega = kQlg ∧
      ∃ d, (sub b l.delta 1 : Exec Unit _) = .ok d ∧ t.asUsize d = g.index := by
  constructor
  · intro h
    obtain ⟨balanced, hb, h⟩ := (bind_ok _ _ _).mp h
    cases balanced with
    | false => cases h
    | true =>
      rw [Bool.not_true, if_neg nofun] at h
      split at h
      · cases h
      · rename_i ho
        obtain ⟨d, hd, h⟩ := (bind_ok _ _ _).mp h
        exact ⟨hb, not_not.mp ho, d, hd, Glyph.byIndex_eq_some.mp (Except.ok.inj h)⟩
  · intro h
    obtain ⟨hb, ho, d, hd, hg⟩ := h
    rw [slaToQra, hb, ok_bind, Bool.not_true, if_neg nofun, if_neg (not_not.mpr ho), hd, ok_bind,
      hg]
    exact congrArg Except.ok (Glyph.byIndex_index g)

theorem slaToQra_image (b : Build) (t : Target) (g : Glyph) :
    slaToQra b t (image g) = .ok (some g) := by
  cases b <;> cases t <;> cases g <;> rfl

theorem asUsize_index (t : Target) : ∀ n < 6, t.asUsize (.ofNat (n + 1) - 1) = n := by
  cases t <;> decide

/-- The least debit less one has all of its low bits set. -/
theorem ne_minValue_of_asUsize {d : Int64} (h : t.asUsize (d - 1) < 6) : d ≠ Int64.minValue := by
  intro hd
  subst hd
  cases t <;> revert h <;> decide

/-- A ledger whose halves cancel out is balanced in each build, and its debit less one has
64 bits, unless the debit is the least integer. -/
theorem balanced_of_ne (hi : l.iota = -l.delta) (hd : l.delta ≠ Int64.minValue) :
    l.isBalanced b = .ok true ∧ (sub b l.delta 1 : Exec Unit _) = .ok (l.delta - 1) := by
  have hr := inRange_toInt l.delta
  have hneg := inRange_neg.mpr hd
  have hiota : l.iota.toInt = -l.delta.toInt := by
    rw [hi, ← ofInt_toInt_neg, toInt_ofInt hneg]
  constructor
  · rw [Ledger.isBalanced_eq_ok, ← ofInt_toInt_add, hiota, Int.add_right_neg]
    exact ⟨rfl, fun _ => by decide⟩
  · rw [sub_eq_ok]
    refine ⟨rfl, fun _ => ?_⟩
    have hone : (1 : Int64).toInt = 1 := rfl
    unfold InRange at hr hneg ⊢
    omega

/-- A ledger is taken for just the glyph it is the image of, exactly where its hash and its
debit agree, or where it fails one of the other checks. -/
theorem reconciled_iff_image (b : Build) (t : Target) (l : Ledger) :
    (∀ g, slaToQra b t l = .ok (some g) ↔ qlgToSla b (qraToQlg g) = .ok (some l)) ↔
      (l.iota = -l.delta → l.omega = kQlg → t.asUsize (l.delta - 1) < 6 →
        l.s.toNat < 6 ∧ l.delta = .ofNat (l.s.toNat + 1)) := by
  constructor
  · intro h hi ho hn
    obtain ⟨hb, hd⟩ := balanced_of_ne hi (ne_minValue_of_asUsize hn)
    obtain ⟨g, hg⟩ := Option.isSome_iff_exists.mp (Glyph.byIndex_isSome ⟨_, hn⟩)
    have hindex := Glyph.byIndex_eq_some.mp hg
    have himage := qlgToSla_eq_some.mp ((h g).mp (slaToQra_eq_some.mpr ⟨hb, ho, _, hd, hindex⟩))
    subst himage
    cases g <;> decide
  · intro h g
    constructor
    · intro hg
      obtain ⟨hb, ho, d, hd, hg⟩ := slaToQra_eq_some.mp hg
      obtain ⟨rfl, -⟩ := sub_eq_ok.mp hd
      have hi := iota_of_balanced hb
      obtain ⟨hs, hdelta⟩ := h hi ho (hg ▸ g.index_lt)
      have hindex : l.s.toNat = g.index := by
        rw [← hg, hdelta, asUsize_index t _ hs]
      have hhash : l.s = .ofNat g.index := by
        rw [← hindex, UInt64.ofNat_toNat]
      rw [hindex] at hdelta
      rw [qlgToSla_eq_some, image, ← hhash, ← hdelta, ← hi]
      exact congrArg (Ledger.mk l.s l.delta l.iota) ho
    · intro hg
      rw [qlgToSla_eq_some.mp hg]
      exact slaToQra_image b t g

/-- A ledger with another hash, and on narrow targets one with a large debit, pass for Pi. -/
theorem not_reconciled_impostor :
    slaToQra .release .bits64 ⟨7, 1, -1, 1⟩ = .ok (some .pi) ∧
      slaToQra .release .bits32 ⟨0, 4294967297, -4294967297, 1⟩ = .ok (some .pi) ∧
      ¬ ∀ g, slaToQra .release .bits64 ⟨7, 1, -1, 1⟩ = .ok (some g) ↔
        qlgToSla .release (qraToQlg g) = .ok (some ⟨7, 1, -1, 1⟩) := by
  refine ⟨rfl, rfl, ?_⟩
  intro h
  have hpi := (h .pi).mp rfl
  revert hpi
  decide

end HyperKitty.Isomorphism
