import HyperKitty.Formalization.Machine
import HyperKitty.Lib.Readable

namespace HyperKitty.Formalization

open FormalizationMachine

variable {id other : String} {i j multiplicity : UInt32}
variable {ids : List String} {o : AgdaIterationObligation}

/-- The machine after one `generate_agda_iterations` call for each id. -/
def generateAll (m : FormalizationMachine) (ids : List String) : FormalizationMachine :=
  ids.foldl (fun m id => (m.generateAgdaIterations id).2) m

def indices (multiplicity : UInt32) : List UInt32 :=
  (List.range' 1 multiplicity.toNat).map UInt32.ofNat

def obligations (multiplicity : UInt32) (ids : List String) : List AgdaIterationObligation :=
  ids.flatMap fun id => (indices multiplicity).map (agdaIteration id)

/-- The obligations are numbered through, and each one starts from what the one
before it derives. -/
structure Chain (multiplicity : UInt32) (os : List AgdaIterationObligation) : Prop where
  numbered : os.map (fun o => o.index.toNat) = List.range' 1 multiplicity.toNat
  linked : ∀ o ∈ os, ∀ o' ∈ os, o'.index.toNat = o.index.toNat + 1 →
    o'.sourceInvariant = o.derivedInvariant

/-- Every id has its chain, and no derived name is used twice or starts a chain. -/
structure Chains (multiplicity : UInt32) (ids : List String) (os : List AgdaIterationObligation) :
    Prop where
  complete : ∀ id ∈ ids, Chain multiplicity (os.filter fun o => o.invariantId = id)
  distinct : (os.map (·.derivedInvariant)).Nodup
  apart : ∀ o ∈ os, ∀ o' ∈ os, o'.index = 1 → o.derivedInvariant ≠ o'.sourceInvariant

theorem map_toNat_indices (multiplicity : UInt32) :
    (indices multiplicity).map UInt32.toNat = List.range' 1 multiplicity.toNat := by
  rw [indices, List.map_map]
  conv_rhs => rw [← List.map_id (List.range' 1 multiplicity.toNat)]
  apply List.map_congr_left
  intro n hn
  have hle := (List.mem_range'_1.mp hn).2
  have hlt : multiplicity.toNat < UInt32.size := multiplicity.toNat_lt
  exact UInt32.toNat_ofNat_of_lt' (by omega)

theorem indices_nodup (multiplicity : UInt32) : (indices multiplicity).Nodup := by
  apply List.Nodup.of_map UInt32.toNat
  rw [map_toNat_indices]
  exact List.nodup_range'

theorem pos_of_mem_indices (hi : i ∈ indices multiplicity) : 1 ≤ i.toNat := by
  have hmem := List.mem_map_of_mem (f := UInt32.toNat) hi
  rw [map_toNat_indices] at hmem
  exact (List.mem_range'_1.mp hmem).1

/-- The name of an iteration determines its invariant and its index. -/
theorem iteration_name_injective (h : s!"{id}_iter_{i}" = s!"{other}_iter_{j}") :
    id = other ∧ i = j := by
  have hchars : (id.toList ++ "_iter".toList) ++ '_' :: Nat.toDigits 10 i.toNat =
      (other.toList ++ "_iter".toList) ++ '_' :: Nat.toDigits 10 j.toNat := by
    simpa [toString, Nat.repr] using congrArg String.toList h
  obtain ⟨hid, hindex⟩ := toDigits_cut rfl hchars
  exact ⟨String.toList_inj.mp (List.append_cancel_right hid), UInt32.toNat_inj.mp hindex⟩

theorem generateAll_agdaIterations (m : FormalizationMachine) (ids : List String) :
    (generateAll m ids).agdaIterations =
      m.agdaIterations ++ obligations m.agdaIterationMultiplicity ids := by
  induction ids generalizing m with
  | nil => simp [generateAll, obligations]
  | cons id ids ih =>
    have hrun := ih (m.generateAgdaIterations id).2
    rw [generateAll, List.foldl_cons, ← generateAll, hrun, obligations, obligations,
      List.flatMap_cons, ← List.append_assoc]
    rfl

theorem mem_obligations :
    o ∈ obligations multiplicity ids ↔
      ∃ id ∈ ids, ∃ i ∈ indices multiplicity, agdaIteration id i = o := by
  simp [obligations]

/-- Distinct ids keep their obligations apart. -/
theorem filter_obligations (hids : ids.Nodup) (hid : id ∈ ids) :
    (obligations multiplicity ids).filter (fun o => o.invariantId = id) =
      (indices multiplicity).map (agdaIteration id) := by
  induction ids with
  | nil => cases hid
  | cons a ids ih =>
    obtain ⟨ha, hids⟩ := List.nodup_cons.mp hids
    have hcons : obligations multiplicity (a :: ids) =
        (indices multiplicity).map (agdaIteration a) ++ obligations multiplicity ids := rfl
    rw [hcons, List.filter_append, List.filter_map]
    rcases List.mem_cons.mp hid with rfl | hm
    · have hrest : (obligations multiplicity ids).filter (fun o => o.invariantId = id) = [] := by
        apply List.filter_eq_nil_iff.mpr
        intro o ho
        obtain ⟨b, hb, i, -, rfl⟩ := mem_obligations.mp ho
        have hne : b ≠ id := fun he => ha (he ▸ hb)
        simp [agdaIteration, hne]
      rw [hrest, List.append_nil, List.filter_eq_self.mpr (by simp [agdaIteration])]
    · have hne : a ≠ id := fun he => ha (he ▸ hm)
      rw [ih hids hm, List.filter_eq_nil_iff.mpr (by simp [agdaIteration, hne]), List.map_nil,
        List.nil_append]

theorem chain_of_indices (multiplicity : UInt32) (id : String) :
    Chain multiplicity ((indices multiplicity).map (agdaIteration id)) where
  numbered := by
    rw [List.map_map]
    exact map_toNat_indices multiplicity
  linked := by
    intro o ho o' ho' hnext
    obtain ⟨i, hi, rfl⟩ := List.mem_map.mp ho
    obtain ⟨j, hj, rfl⟩ := List.mem_map.mp ho'
    have hij : j - 1 = i := by
      have hstep : j.toNat = i.toNat + 1 := hnext
      have hle : (1 : UInt32) ≤ j := UInt32.le_iff_toNat_le.mpr (by simp; omega)
      rw [← UInt32.toNat_inj, UInt32.toNat_sub_of_le j 1 hle, hstep]
      rfl
    simp only [agdaIteration, hij]

theorem derived_nodup (hids : ids.Nodup) :
    ((obligations multiplicity ids).map (·.derivedInvariant)).Nodup := by
  have hprod : obligations multiplicity ids =
      (ids ×ˢ indices multiplicity).map fun p => agdaIteration p.1 p.2 := by
    change _ = (ids.flatMap fun id => (indices multiplicity).map (Prod.mk id)).map _
    rw [List.map_flatMap]
    simp only [List.map_map, Function.comp_def, obligations]
  rw [hprod, List.map_map]
  apply (hids.product (indices_nodup multiplicity)).map
  intro p q h
  obtain ⟨hid, hindex⟩ := iteration_name_injective h
  exact Prod.ext hid hindex

theorem chains_of_obligations (multiplicity : UInt32) (hids : ids.Nodup) :
    Chains multiplicity ids (obligations multiplicity ids) where
  complete := by
    intro id hid
    rw [filter_obligations hids hid]
    exact chain_of_indices multiplicity id
  distinct := derived_nodup hids
  apart := by
    intro o ho o' ho' hfirst hname
    obtain ⟨id, -, i, hi, rfl⟩ := mem_obligations.mp ho
    obtain ⟨other, -, j, -, rfl⟩ := mem_obligations.mp ho'
    obtain ⟨-, hindex⟩ := iteration_name_injective hname
    have hpos := pos_of_mem_indices hi
    have hj : j = 1 := hfirst
    rw [hindex, hj] at hpos
    exact absurd hpos (by decide)

/-- The calls leave a complete chain for every id, and no two chains share a derived name. -/
theorem generateAll_chains (hids : ids.Nodup) (projectName organization formalizationOrder : String)
    (multiplicity : UInt32) : Chains multiplicity ids (generateAll
      (.new projectName organization formalizationOrder multiplicity) ids).agdaIterations := by
  have hm : (generateAll (.new projectName organization formalizationOrder multiplicity)
      ids).agdaIterations = obligations multiplicity ids := generateAll_agdaIterations _ _
  rw [hm]
  exact chains_of_obligations multiplicity hids

/-- Ids that look like names of iterations keep their chains. -/
theorem generateAll_chains_nested : Chains 2 ["inv", "inv_iter_1"]
    (generateAll (.new "" "" "" 2) ["inv", "inv_iter_1"]).agdaIterations :=
  generateAll_chains (by simp) "" "" "" 2

end HyperKitty.Formalization
