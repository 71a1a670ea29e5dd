import Mathlib

namespace Keyed

variable {α β κ : Type*} [DecidableEq κ] {key : α → κ} {xs : List α}

/-- Change the first entry with key `k`. There is no result when no entry has it. -/
def updateFirst (key : α → κ) (k : κ) (f : α → α) : List α → Option (List α)
  | [] => none
  | x :: xs => if key x = k then some (f x :: xs) else (updateFirst key k f xs).map (x :: ·)

section Update

variable {k : κ} {f : α → α} {ys : List α}

theorem updateFirst_eq_none : updateFirst key k f xs = none ↔ k ∉ xs.map key := by
  induction xs with
  | nil => simp [updateFirst]
  | cons x xs ih =>
    rw [updateFirst]
    split
    · rename_i hk
      simp [hk]
    · rename_i hk
      simp only [Option.map_eq_none_iff, ih, List.map_cons, List.mem_cons, Ne.symm hk, false_or]

/-- What `f` leaves alone in every entry is the same in the updated list. -/
theorem updateFirst_map (g : α → β) (h : updateFirst key k f xs = some ys)
    (hg : ∀ x, g (f x) = g x) : ys.map g = xs.map g := by
  induction xs generalizing ys with
  | nil => cases h
  | cons x xs ih =>
    rw [updateFirst] at h
    split at h
    · cases h
      rw [List.map_cons, List.map_cons, hg]
    · obtain ⟨zs, hz, rfl⟩ := Option.map_eq_some_iff.mp h
      rw [List.map_cons, List.map_cons, ih hz]

/-- Where keys are distinct, updating the first entry updates all with the key. -/
theorem updateFirst_eq_map (hn : (xs.map key).Nodup) (h : updateFirst key k f xs = some ys) :
    ys = xs.map fun x => if key x = k then f x else x := by
  induction xs generalizing ys with
  | nil => cases h
  | cons x xs ih =>
    rw [List.map_cons, List.nodup_cons] at hn
    rw [updateFirst] at h
    split at h
    · rename_i hk
      cases h
      have hrest : xs.map (fun x => if key x = k then f x else x) = xs := by
        refine (List.map_congr_left fun y hy => if_neg fun hyk => hn.1 ?_).trans (List.map_id' xs)
        rw [hk, ← hyk]
        exact List.mem_map_of_mem hy
      rw [List.map_cons, if_pos hk, hrest]
    · rename_i hk
      obtain ⟨zs, hz, rfl⟩ := Option.map_eq_some_iff.mp h
      rw [List.map_cons, if_neg hk, ih hn.2 hz]

end Update

/-- Where keys are distinct, looking up an entry's key finds that entry. -/
theorem find?_key (h : (xs.map key).Nodup) (hx : x ∈ xs) :
    xs.find? (fun y => key y == key x) = some x := by
  induction xs with
  | nil => cases hx
  | cons y ys ih =>
    rw [List.map_cons, List.nodup_cons] at h
    rcases List.mem_cons.mp hx with rfl | hx
    · simp
    · have hne : key y ≠ key x := fun he => h.1 (he ▸ List.mem_map_of_mem hx)
      rw [List.find?_cons_of_neg (by simpa using hne)]
      exact ih h.2 hx

section Sorting

variable {r : α → α → Prop} [DecidableRel r] {p : α → Bool}

/-- A stable sort keeps entries that it does not tell apart as they stand. -/
theorem filter_insertionSort (hp : ∀ x y, p x = true → p y = true → r x y) (xs : List α) :
    (xs.insertionSort r).filter p = xs.filter p := by
  have hsame : (xs.filter p).Pairwise r := by
    apply List.pairwise_of_forall_mem_list
    intro x hx y hy
    exact hp x y (List.of_mem_filter hx) (List.of_mem_filter hy)
  have hs := (List.sublist_insertionSort hsame List.filter_sublist).filter p
  simp only [List.filter_filter, Bool.and_self] at hs
  apply (hs.eq_of_length _).symm
  exact ((List.perm_insertionSort _ xs).filter _).length_eq.symm

/-- The first entry with a key is the same after a stable sort. -/
theorem find_insertionSort (hp : ∀ x y, p x = true → p y = true → r x y) (xs : List α) :
    (xs.insertionSort r).find? p = xs.find? p := by
  rw [← List.head?_filter, filter_insertionSort hp, List.head?_filter]

end Sorting

section Maps

variable {γ : κ → Type*} {m : AList γ} {e : Sigma γ} {es : List (Sigma γ)}

/-- One entry after another is put into the map, over an earlier one with its key. -/
def insertAll (m : AList γ) (es : List (Sigma γ)) : AList γ :=
  es.foldl (fun m e => m.insert e.1 e.2) m

theorem insertAll_cons (m : AList γ) (e : Sigma γ) (es : List (Sigma γ)) :
    insertAll m (e :: es) = insertAll (m.insert e.1 e.2) es := rfl

/-- New keys, each once, leave every entry in the map. -/
theorem insertAll_perm (hn : (es.map Sigma.fst).Nodup) (hm : ∀ e ∈ es, e.1 ∉ m) :
    (insertAll m es).entries.Perm (es ++ m.entries) := by
  induction es generalizing m with
  | nil => rfl
  | cons e es ih =>
    obtain ⟨he, hm⟩ := List.forall_mem_cons.mp hm
    rw [List.map_cons, List.nodup_cons] at hn
    have hrest : ∀ d ∈ es, d.1 ∉ m.insert e.1 e.2 := by
      intro d hd hin
      rcases (AList.mem_insert _).mp hin with hk | hin
      · exact hn.1 (hk ▸ List.mem_map_of_mem hd)
      · exact hm d hd hin
    have hp := ih hn.2 hrest
    rw [AList.insert_of_notMem he] at hp
    rw [insertAll_cons, AList.insert_of_notMem he]
    exact hp.trans List.perm_middle

theorem mem_insertAll {k : κ} : k ∈ insertAll m es ↔ k ∈ es.map Sigma.fst ∨ k ∈ m := by
  induction es generalizing m with
  | nil => simp [insertAll]
  | cons e es ih =>
    rw [insertAll_cons, ih, AList.mem_insert, List.map_cons, List.mem_cons]
    tauto

/-- Exactly when no key occurs twice do all entries end up in the map. -/
theorem insertAll_empty_perm :
    (insertAll ∅ es).entries.Perm es ↔ (es.map Sigma.fst).Nodup := by
  constructor
  · intro h
    exact (h.map Sigma.fst).nodup_iff.mp (insertAll ∅ es).nodupKeys
  · intro h
    have hp : (insertAll ∅ es).entries.Perm (es ++ []) :=
      insertAll_perm h fun e _ => AList.notMem_empty e.1
    rwa [List.append_nil] at hp

theorem insertAll_empty_eq_nil : (insertAll ∅ es).entries = [] ↔ es = [] := by
  constructor
  · intro h
    by_contra hne
    obtain ⟨e, es, rfl⟩ := List.exists_cons_of_ne_nil hne
    have hk : e.1 ∈ insertAll ∅ (e :: es) := mem_insertAll.mpr (.inl (by simp))
    rw [AList.mem_keys, AList.keys, h] at hk
    cases hk
  · intro h
    subst h
    rfl

end Maps
end Keyed
