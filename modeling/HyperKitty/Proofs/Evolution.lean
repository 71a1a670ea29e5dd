import HyperKitty.Sla.Exact

namespace HyperKitty.Sla

open Exec Checked Exact Ledger

/-- An increment under the omega of the base. -/
def Ledger.retag (omega : Int64) (m : Ledger) : Ledger := { m with omega }

variable {b : Build} {base l m r : Ledger} {ms : List Ledger}

/-- On balanced ledgers evolution is composition with the increment under the base's omega. -/
theorem evolve_eq_compose (hl : l.isBalanced b = .ok true) (hm : m.isBalanced b = .ok true)
    (ho : m.omega = 0) : l.evolve b m = l.compose b (m.retag l.omega) := by
  obtain ⟨a, rfl, ha⟩ := exists_of_balanced hl
  obtain ⟨c, rfl, hc⟩ := exists_of_balanced hm
  rw [evolve_toLedger ha hc, Account.shift_eq_join ho]
  exact (compose_toLedger (c := ⟨c.amount, a.tag⟩) ha hc).symm

/-- A ledger that has evolved is balanced, whatever it came from. -/
theorem balanced_of_evolve (h : l.evolve b m = .ok (some r)) :
    r.omega = l.omega ∧ r.reconciliation b = .ok 0 ∧ r.isBalanced b = .ok true := by
  obtain ⟨hm, ho⟩ := accepted_of_evolve h
  obtain ⟨c, rfl, hc⟩ := exists_of_balanced hm
  rw [evolve_of_balanced (reconciliation_toLedger hc) ho] at h
  obtain ⟨delta, -, h⟩ := (bind_ok _ _ _).mp h
  obtain ⟨k, hk, h⟩ := (bind_ok _ _ _).mp h
  cases h
  obtain ⟨a, ha, hf⟩ := exists_of_new hk
  obtain ⟨rfl, -⟩ := new_eq_ok.mp hk
  refine ⟨rfl, ?_⟩
  rw [ha]
  exact ⟨reconciliation_toLedger hf, isBalanced_toLedger hf⟩

theorem composeAll_of_evolveAll (hbase : base.isBalanced b = .ok true)
    (h : evolveAll b base ms = .ok (some l)) :
    composeAll b base (ms.map (retag base.omega)) = .ok (some l) ∧ l.omega = base.omega ∧
      l.isBalanced b = .ok true := by
  induction ms generalizing base with
  | nil =>
    cases h
    exact ⟨rfl, rfl, hbase⟩
  | cons m ms ih =>
    obtain ⟨k, hk, h⟩ := runAll_cons_eq_some.mp h
    obtain ⟨hm, hm0⟩ := accepted_of_evolve hk
    obtain ⟨ho, -, hkb⟩ := balanced_of_evolve hk
    rw [evolve_eq_compose hbase hm hm0] at hk
    obtain ⟨hrest, hl⟩ := ih hkb h
    rw [ho] at hrest hl
    exact ⟨runAll_cons_eq_some.mpr ⟨k, hk, hrest⟩, hl⟩

/-- At every step of the evolution the result is the composition with the increments, omega is
kept, and so is the reconciliation value. -/
def Conserves (b : Build) (base : Ledger) (increments : List Ledger) : Prop :=
  ∀ p, p <+: increments → ∀ l, evolveAll b base p = .ok (some l) →
    composeAll b base (p.map (retag base.omega)) = .ok (some l) ∧ l.omega = base.omega ∧
      l.reconciliation b = base.reconciliation b

/-- Evolution is composition, and conserves what it should, exactly for balanced bases. -/
theorem conserves_iff_balanced {increments : List Ledger} {value : Int64}
    (h : evolveAll b base increments = .ok (some l)) (hv : base.reconciliation b = .ok value) :
    Conserves b base increments ↔ increments = [] ∨ value = 0 := by
  constructor
  · intro hc
    cases increments with
    | nil => exact .inl rfl
    | cons m ms =>
      obtain ⟨k, hk, -⟩ := runAll_cons_eq_some.mp h
      have hone : evolveAll b base [m] = .ok (some k) := runAll_cons_eq_some.mpr ⟨k, hk, rfl⟩
      obtain ⟨-, -, hr⟩ := hc [m] ⟨ms, rfl⟩ k hone
      rw [(balanced_of_evolve hk).2.1, hv] at hr
      cases hr
      exact .inr rfl
  · intro hc p hp k hk
    rcases hc with rfl | rfl
    · cases List.prefix_nil.mp hp
      cases hk
      exact ⟨rfl, rfl, rfl⟩
    · have hbase : base.isBalanced b = .ok true := by
        rw [isBalanced, hv]
        rfl
      obtain ⟨hcompose, ho, hb⟩ := composeAll_of_evolveAll hbase hk
      obtain ⟨a, rfl, ha⟩ := exists_of_balanced hb
      exact ⟨hcompose, ho, by rw [hv, reconciliation_toLedger ha]⟩

theorem conserves_iff_balanced_two :
    Conserves .debug ⟨1, 5, -5, 42⟩ [⟨2, 3, -3, 0⟩, ⟨1, -4, 4, 0⟩] ↔
      [(⟨2, 3, -3, 0⟩ : Ledger), ⟨1, -4, 4, 0⟩] = [] ∨ (0 : Int64) = 0 :=
  conserves_iff_balanced (l := ⟨4, 4, -4, 42⟩) (by decide) (by decide)

/-- A base that is not balanced turns balanced in one step. -/
theorem not_conserves_unbalanced :
    Ledger.evolve .debug ⟨1, 5, 0, 42⟩ ⟨2, 3, -3, 0⟩ = .ok (some ⟨3, 8, -8, 42⟩) ∧
      Ledger.compose .debug ⟨1, 5, 0, 42⟩ ⟨2, 3, -3, 42⟩ = .ok (some ⟨3, 8, -3, 42⟩) ∧
      ¬ Conserves .debug ⟨1, 5, 0, 42⟩ [⟨2, 3, -3, 0⟩] := by
  refine ⟨by decide, by decide, ?_⟩
  intro h
  obtain ⟨hc, -⟩ := h _ (List.prefix_refl _) ⟨3, 8, -8, 42⟩ (by decide)
  revert hc
  decide

end HyperKitty.Sla
