import HyperKitty.Lib.Orbit
import HyperKitty.Proofs.Lifetimes
import HyperKitty.Witness.History

namespace HyperKitty

open Exec Routing Orbit

namespace Witness

/-- The witness after one evolution. -/
def next (w : Witness) : Witness :=
  ⟨nextGlyph w.g0 w.g1, nextGlyph w.g1 w.g2, nextGlyph w.g2 w.g0⟩

/-- The witness is at its end, for good or ill. -/
def stops (w : Witness) : Bool := w.isExhausted || w.isInvalidFixedPoint

/-- Three times the identity. -/
def identities : Witness := ⟨.lambda, .lambda, .lambda⟩

def absorbers : Witness := ⟨.omega, .omega, .omega⟩

variable {w : Witness}

theorem isExhausted_iff : w.isExhausted = true ↔ w = absorbers := by
  obtain ⟨g0, g1, g2⟩ := w
  simp [isExhausted, asSlice, Glyph.isAbsorber, absorbers]

theorem isInvalidFixedPoint_iff : w.isInvalidFixedPoint = true ↔ w = identities := by
  obtain ⟨g0, g1, g2⟩ := w
  simp [isInvalidFixedPoint, asSlice, Glyph.isIdentity, identities]

/-- A statement about all witnesses is one about three glyphs. -/
instance : Fintype Glyph := ⟨{.pi, .gamma, .delta, .omega, .lambda, .psi}, fun g => by
  cases g <;> decide⟩

theorem forall_iff {P : Witness → Prop} : (∀ w, P w) ↔ ∀ g0 g1 g2, P ⟨g0, g1, g2⟩ :=
  ⟨fun h _ _ _ => h _, fun h _ => h _ _ _⟩

theorem stops_iff : w.stops = true ↔ w = absorbers ∨ w = identities := by
  rw [stops, Bool.or_eq_true, isExhausted_iff, isInvalidFixedPoint_iff]

theorem next_identities : identities.next = identities := rfl

/-- Three evolutions are enough, unless nothing ever changes. -/
theorem iterate_next_of_ne : ∀ w : Witness, w ≠ identities → next^[3] w = absorbers := by
  rw [forall_iff]
  decide +kernel

theorem iterate_next_identities (n : Nat) : next^[n] identities = identities :=
  Function.iterate_fixed next_identities n

/-- Only the identities lead to themselves. -/
theorem next_eq_identities : ∀ w : Witness, w.next = identities → w = identities := by
  rw [forall_iff]
  decide +kernel

theorem iterate_next_ne (hw : w ≠ identities) (n : Nat) : next^[n] w ≠ identities := by
  induction n with
  | zero => exact hw
  | succ n ih =>
    rw [Function.iterate_succ_apply']
    exact fun h => ih (next_eq_identities _ h)

theorem exists_stopsAt (w : Witness) : ∃ n ≤ 3, StopsAt next stops w n := by
  have hex : ∃ n, (next^[n] w).stops = true := by
    by_cases hw : w = identities
    · exact ⟨0, stops_iff.mpr (.inr hw)⟩
    · exact ⟨3, stops_iff.mpr (.inl (iterate_next_of_ne w hw))⟩
  have hle : Nat.find hex ≤ 3 := by
    apply Nat.find_min' hex
    by_cases hw : w = identities
    · rw [hw, iterate_next_identities]
      rfl
    · rw [iterate_next_of_ne w hw]
      rfl
  refine ⟨Nat.find hex, hle, Nat.find_spec hex, fun k hk => ?_⟩
  exact Bool.eq_false_of_not_eq_true (Nat.find_min hex hk)

/-- What the loop comes back with from a witness that stops it. -/
def outcome (w : Witness) (states : List Witness) : WitnessHistory :=
  ⟨states, w.isExhausted, !w.isExhausted⟩

theorem exhaustPass_of_stops (w : Witness) (states : List Witness) (h : w.stops = true) :
    exhaustPass (w, states) = .ok (.done (w.outcome states)) := by
  rw [exhaustPass, outcome]
  cases he : w.isExhausted with
  | true => rfl
  | false =>
    rw [stops, he, Bool.false_or] at h
    rw [if_neg Bool.false_ne_true, if_pos h]
    rfl

theorem exhaustPass_of_not_stops (w : Witness) (states : List Witness) (h : w.stops = false) :
    exhaustPass (w, states) = .ok (.next (w.next, states ++ [w.next])) := by
  rw [stops, Bool.or_eq_false_iff] at h
  rw [exhaustPass, h.1, h.2]
  rfl

/-- The history is the orbit of the witness up to its end. -/
structure IsHistory (w : Witness) (h : WitnessHistory) : Prop where
  orbit : ∃ n ≤ 3, StopsAt next stops w n ∧ h.states = upTo next n w
  last : h.states.getLast? = some (if h.fixedPoint then identities else absorbers)
  exhausted : h.exhausted = true ↔ w ≠ identities
  fixedPoint : h.fixedPoint = true ↔ w = identities

/-- The loop ends on every witness, within three evolutions; and it ends with the absorbers
unless it begins with the identities. -/
theorem exhaust_returns (w : Witness) :
    ∃ h, IsHistory w h ∧ ∀ fuel, w.exhaust (fuel + 4) = .ok h := by
  obtain ⟨n, hn, hstop⟩ := exists_stopsAt w
  have hend : (next^[n] w).isExhausted = true ↔ w ≠ identities := by
    rw [isExhausted_iff]
    constructor
    · rintro habsorb rfl
      rw [iterate_next_identities] at habsorb
      cases habsorb
    · intro hw
      exact (stops_iff.mp hstop.here).resolve_right (iterate_next_ne hw n)
  have hlast : (upTo next n w).getLast? = some (next^[n] w) := by
    rw [List.getLast?_eq_getElem?, length_upTo]
    exact getElem?_upTo le_rfl
  refine ⟨outcome (next^[n] w) (upTo next n w), ⟨⟨n, hn, hstop, rfl⟩, ?_, hend, ?_⟩, ?_⟩
  · rw [outcome, hlast]
    rcases stops_iff.mp hstop.here with h | h
    · rw [h]
      rfl
    · rw [h]
      rfl
  · rw [outcome, Bool.not_eq_true', ← Bool.not_eq_true, hend, not_not]
  · intro fuel
    exact loop_records [] exhaustPass_of_stops exhaustPass_of_not_stops hstop (by omega)

/-- The witness of the same glyphs in the other implementation. -/
def toC (w : Witness) : Routing.Witness := ⟨w.g0.index, w.g1.index, w.g2.index⟩

/-- The number of uses after which the built-in tensor of the other implementation has used up
the witness, if it ever does: only three deltas, and absorbers among identities. -/
def usesInC (w : Witness) : Option Nat :=
  if w = ⟨.delta, .delta, .delta⟩ then some 1
  else if w.asSlice.all fun g => g.isAbsorber || g.isIdentity then
    match w.asSlice.count .omega with
    | 0 => none
    | 1 => some 2
    | _ => some 1
  else none

/-- The built-in tensor changes nothing after three evolutions. -/
theorem settles : ∀ w : Witness,
    qraEvolveWitness (witnessAfter .alloc w.toC 3) .alloc = witnessAfter .alloc w.toC 3 := by
  rw [forall_iff]
  decide +kernel

theorem absorbed_small : ∀ w : Witness,
    (qraIsAbsorbed (witnessAfter .alloc w.toC 1) = true ↔ w.usesInC = some 1) ∧
    (qraIsAbsorbed (witnessAfter .alloc w.toC 2) = true ↔ w.usesInC.isSome = true) ∧
    (qraIsAbsorbed (witnessAfter .alloc w.toC 3) = true ↔ w.usesInC.isSome = true) ∧
    (w.usesInC = none ∨ w.usesInC = some 1 ∨ w.usesInC = some 2) := by
  rw [forall_iff]
  decide +kernel

theorem absorbed_after_three (w : Witness) (k : Nat) :
    qraIsAbsorbed (witnessAfter .alloc w.toC (3 + k)) = true ↔ w.usesInC.isSome = true := by
  have hsame : witnessAfter .alloc w.toC (3 + k) = witnessAfter .alloc w.toC 3 := by
    induction k with
    | zero => rfl
    | succ k ih => rw [← Nat.add_assoc, witnessAfter_succ, ih, settles]
  rw [hsame]
  exact (absorbed_small w).2.2.1

theorem uses_cases {n : Nat} (h : 1 ≤ n) : n = 1 ∨ n = 2 ∨ ∃ k, n = 3 + k := by
  rcases (by omega : n = 1 ∨ n = 2 ∨ 3 ≤ n) with h | h | h
  · exact .inl h
  · exact .inr (.inl h)
  · exact .inr (.inr (Nat.exists_eq_add_of_le h))

theorem usedUp_toC {w : Witness} {maxSteps n : Int} : UsedUp .alloc w.toC maxSteps n ↔
    ∃ k : Nat, w.usesInC = some k ∧ (k : Int) ≤ n ∧ n ≤ maxSteps := by
  obtain ⟨hone, htwo, -, hcases⟩ := absorbed_small w
  have hpos : ∀ k, w.usesInC = some k → 1 ≤ k := by
    rcases hcases with h | h | h <;> simp [h]
  unfold UsedUp
  constructor
  · intro ⟨h1, hle, h⟩
    obtain ⟨n, rfl⟩ := Int.eq_ofNat_of_zero_le (by omega : 0 ≤ n)
    rw [Int.toNat_natCast] at h
    rcases uses_cases (by omega : 1 ≤ n) with rfl | rfl | ⟨k, rfl⟩
    · exact ⟨1, hone.mp h, le_rfl, hle⟩
    · obtain ⟨k, hk⟩ := Option.isSome_iff_exists.mp (htwo.mp h)
      rcases hcases with hn | hn | hn
      all_goals rw [hn] at hk; cases hk
      all_goals exact ⟨_, hn, by omega, hle⟩
    · obtain ⟨u, hu⟩ := Option.isSome_iff_exists.mp ((absorbed_after_three w k).mp h)
      rcases hcases with hn | hn | hn
      all_goals rw [hn] at hu; cases hu
      all_goals exact ⟨_, hn, by omega, hle⟩
  · intro ⟨k, hk, hle, hmax⟩
    have hk1 := hpos k hk
    have hsome : w.usesInC.isSome = true := by rw [hk]; rfl
    refine ⟨by omega, hmax, ?_⟩
    obtain ⟨n, rfl⟩ := Int.eq_ofNat_of_zero_le (by omega : 0 ≤ n)
    rw [Int.toNat_natCast]
    rcases uses_cases (by omega : 1 ≤ n) with rfl | rfl | ⟨j, rfl⟩
    · obtain rfl : k = 1 := by omega
      exact hone.mpr hk
    · exact htwo.mpr hsome
    · exact (absorbed_after_three w j).mpr hsome

theorem qraIsFixed_toC : ∀ w : Witness, qraIsFixed w.toC = true ↔ w = identities := by
  rw [forall_iff]
  decide +kernel

/-- The other implementation counts one use less than it takes. -/
def lifetimeInC (w : Witness) (maxSteps : Int) : Int :=
  match w.usesInC with
  | some k => if (k : Int) ≤ maxSteps then k - 1 else -1
  | none => -1

theorem qraTokenLifetime_toC (w : Witness) (maxSteps : Int) :
    qraTokenLifetime w.toC maxSteps (some .alloc) = w.lifetimeInC maxSteps := by
  have hnone : (∀ n, ¬ UsedUp .alloc w.toC maxSteps n) → w.lifetimeInC maxSteps = -1 := by
    intro hno
    unfold lifetimeInC
    split
    · rename_i k hk
      exact if_neg fun hle => hno k (usedUp_toC.mpr ⟨k, hk, le_rfl, hle⟩)
    · rfl
  rcases qraTokenLifetime_cases .alloc w.toC maxSteps with ⟨hf, he⟩ | ⟨-, hno, he⟩ | ⟨-, hl⟩
  · rw [he, (qraIsFixed_toC w).mp hf]
    rfl
  · rw [he, hnone hno]
  · obtain ⟨k, hk, hle, hmax⟩ := usedUp_toC.mp hl.1
    have hleast := hl.2 (usedUp_toC.mpr ⟨k, hk, le_rfl, hle.trans hmax⟩)
    rw [lifetimeInC, hk]
    dsimp only
    rw [if_pos (hle.trans hmax)]
    omega

/-- The two implementations, each with its own tensor, on one witness: the one exhausts all but
the identities, and the other very few of them. -/
theorem implementations_on (w : Witness) :
    (∀ fuel, ∃ h, w.exhaust (fuel + 4) = .ok h ∧ (h.exhausted = true ↔ w ≠ identities)) ∧
      (∀ maxSteps, qraTokenLifetime w.toC maxSteps (some .alloc) = w.lifetimeInC maxSteps) ∧
      (w.usesInC.isSome = true ↔ w = ⟨.delta, .delta, .delta⟩ ∨
        (∀ g ∈ w.asSlice, g = .omega ∨ g = .lambda) ∧ .omega ∈ w.asSlice) := by
  refine ⟨fun fuel => ?_, qraTokenLifetime_toC w, ?_⟩
  · obtain ⟨h, hh, hfuel⟩ := exhaust_returns w
    exact ⟨h, hfuel fuel, hh.exhausted⟩
  · revert w
    rw [forall_iff]
    decide +kernel

end Witness

namespace Routing.QRADispatcher

variable {current previous : Glyph} {rounds : Nat} {states : List Glyph}

theorem routeRounds_absorber : routeRounds rounds states .omega previous = .ok states := by
  cases rounds <;> rfl

theorem routeRounds_next (h : current ≠ .omega) :
    routeRounds (rounds + 1) states current previous =
      routeRounds rounds (states ++ [nextGlyph current previous]) (nextGlyph current previous)
        current := by
  rw [routeRounds, if_neg (by simpa [Glyph.isAbsorber] using h), dispatch_eq]
  rfl

theorem routeRounds_identity : routeRounds rounds states .lambda .lambda =
    .ok (states ++ List.replicate rounds .lambda) := by
  induction rounds generalizing states with
  | zero => rw [routeRounds, List.replicate_zero, List.append_nil]
  | succ rounds ih =>
    have hnext : nextGlyph .lambda .lambda = .lambda := rfl
    rw [routeRounds_next (by decide), hnext, ih, List.append_assoc]
    rfl

/-- What is not the identity comes to Delta or to the absorber, and from Delta to the latter. -/
theorem nextGlyph_of_ne (h : current ≠ .lambda) (previous : Glyph) :
    nextGlyph current previous = .omega ∨
      nextGlyph current previous = .delta ∧ nextGlyph .delta current = .omega := by
  cases current <;> cases previous <;> first | exact absurd rfl h | decide

theorem routeRounds_of_ne (h : current ≠ .lambda) (rounds : Nat) (states : List Glyph)
    (previous : Glyph) : ∃ more, more.length ≤ 2 ∧
    routeRounds (rounds + 2) states current previous = .ok (states ++ more) ∧
      (current :: more).getLast? = some .omega := by
  by_cases habsorb : current = .omega
  · subst habsorb
    exact ⟨[], by decide, by rw [routeRounds_absorber, List.append_nil], rfl⟩
  · rcases nextGlyph_of_ne h previous with hnext | ⟨hnext, hdelta⟩
    · refine ⟨[.omega], by decide, ?_, rfl⟩
      rw [routeRounds_next habsorb, hnext, routeRounds_absorber]
    · refine ⟨[.delta, .omega], by decide, ?_, rfl⟩
      rw [routeRounds_next habsorb, hnext, routeRounds_next (by decide), hdelta,
        routeRounds_absorber, List.append_assoc]
      rfl

theorem routeRounds_more (current previous : Glyph) (rounds : Nat) : ∃ more,
    routeRounds (rounds + 3) [current] current previous = .ok (current :: more) ∧
      ((current = .lambda ∧ previous = .lambda ∧ more = List.replicate (rounds + 3) .lambda) ∨
        (more.length ≤ 3 ∧ (current :: more).getLast? = some .omega)) := by
  by_cases hcurrent : current = .lambda
  · subst hcurrent
    by_cases hprevious : previous = .lambda
    · subst hprevious
      exact ⟨_, routeRounds_identity, .inl ⟨rfl, rfl, rfl⟩⟩
    · have hnext : nextGlyph .lambda previous = previous := by cases previous <;> rfl
      obtain ⟨more, hlen, hrounds, hlast⟩ := routeRounds_of_ne hprevious rounds
        [.lambda, previous] .lambda
      refine ⟨previous :: more, ?_, .inr ⟨by rw [List.length_cons]; omega, ?_⟩⟩
      · rw [routeRounds_next (by decide), hnext]
        exact hrounds
      · rw [List.getLast?_cons_cons, hlast]
  · obtain ⟨more, hlen, hrounds, hlast⟩ := routeRounds_of_ne hcurrent (rounds + 1)
      [current] previous
    exact ⟨more, hrounds, .inr ⟨by omega, hlast⟩⟩

/-- From any pair of glyphs but the identities the rounds come to the absorber at once, and end
there; the identities use up all of them. A route starts behind an identity, and has a hundred. -/
theorem routeRounds_ends (current previous : Glyph) (rounds : Nat) : (∃ more,
    routeRounds (rounds + 3) [current] current previous = .ok (current :: more) ∧
      ((current = .lambda ∧ previous = .lambda ∧ more = List.replicate (rounds + 3) .lambda) ∨
        (more.length ≤ 3 ∧ (current :: more).getLast? = some .omega))) ∧
    ∃ more, routeToConvergence current = .ok (current :: more) ∧
      ((current = .lambda ∧ more = List.replicate 100 .lambda) ∨
        (more.length ≤ 3 ∧ (current :: more).getLast? = some .omega)) := by
  refine ⟨routeRounds_more current previous rounds, ?_⟩
  obtain ⟨more, hroute, hends⟩ := routeRounds_more current .lambda 97
  exact ⟨more, hroute, hends.imp_left fun ⟨hcurrent, _, hmore⟩ => ⟨hcurrent, hmore⟩⟩

end Routing.QRADispatcher

end HyperKitty
