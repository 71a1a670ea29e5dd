import HyperKitty.Proofs.Compiling
import HyperKitty.Proofs.Export

namespace HyperKitty.Constraints

open Lexer

/-- A token is spelled somewhere in the text that is laid out from it. -/
theorem Layout.spelled (h : Layout u prev ts text) : ∀ t ∈ ts, ∃ cs, Spells u t cs := by
  induction h with
  | nil => exact List.forall_mem_nil _
  | cons _ _ ht _ ih => exact List.forall_mem_cons.mpr ⟨⟨_, ht⟩, ih⟩

theorem keyword_ident (h : keyword s = .ident name) : name = s ∧ s ∉ keywords := by
  unfold keyword at h
  split_ifs at h with h1 h2 h3 h4 h5 h6
  cases h
  exact ⟨rfl, by simp [keywords, h1, h2, h3, h4, h5, h6]⟩

/-- Only a name is spelled as one. -/
theorem isName_of_spells (h : Spells u (.ident name) cs) : isName u name = true := by
  generalize ht : Token.ident name = t at h
  cases h with
  | punctuation hc =>
    subst ht
    unfold punctuation at hc
    split at hc
    all_goals cases hc
  | arrow | string | number => cases ht
  | @word c cs hc hd =>
    obtain ⟨rfl, hk⟩ := keyword_ident ht.symm
    simp only [isName, String.toList_ofList, Bool.and_eq_true, List.all_eq_true,
      List.contains_eq_mem, Bool.not_eq_true', decide_eq_false_iff_not]
    exact ⟨⟨hc, hd⟩, hk⟩

theorem isIdentPart_of_isName (h : isName u s = true) :
    ∀ c ∈ s.toList, u.isIdentPart c = true := by
  unfold isName at h
  split at h
  · cases h
  · rename_i c cs hs
    simp only [Bool.and_eq_true, List.all_eq_true] at h
    rw [hs]
    exact List.forall_mem_cons.mpr ⟨Unicode.isIdentPart_of_start h.1.1, h.1.2⟩

/-- The names of the constraint, as tokens of the program. -/
theorem RequiresDerive.name_mem (h : RequiresDerive ts reqs) :
    ∀ req ∈ reqs, .ident req.name ∈ ts := by
  induction h with
  | nil => exact List.forall_mem_nil _
  | @cons ts req us reqs hr _ ih =>
    rw [List.forall_mem_cons]
    constructor
    · cases hr with
      | check => simp [Requirement.name]
      | predicate => simp [Requirement.name]
    · intro req' hreq
      have := ih req' hreq
      simp [this]

theorem ConstraintDerives.name_mem (h : ConstraintDerives ts c) :
    .ident c.name ∈ ts ∧ ∀ req ∈ c.requires, .ident req.name ∈ ts := by
  cases h with
  | mk _ hr _ =>
    refine ⟨by simp, fun req hreq => ?_⟩
    have := hr.name_mem req hreq
    simp [this]

theorem ProgramDerives.tokens_of_mem (h : ProgramDerives ts cs) :
    ∀ c ∈ cs, ∃ us, ConstraintDerives us c ∧ us ⊆ ts := by
  induction h with
  | nil => exact List.forall_mem_nil _
  | @cons ts c us cs hc _ ih =>
    refine List.forall_mem_cons.mpr ⟨⟨ts, hc, List.subset_append_left _ _⟩, fun c' hc' => ?_⟩
    obtain ⟨vs, hv, hsub⟩ := ih c' hc'
    exact ⟨vs, hv, List.subset_append_of_subset_right _ hsub⟩

/-- What the compiler returns has names that can be written down. -/
theorem lexable_of_compile (h : compile u text = .ok p) : p.Lexable u := by
  obtain ⟨ts, hl, hd⟩ := compile_ok_iff.mp h
  have hname : ∀ name, .ident name ∈ ts → isName u name = true := by
    intro name ht
    obtain ⟨cs, hs⟩ := hl.spelled _ ht
    exact isName_of_spells hs
  intro c hc
  obtain ⟨us, hu, hsub⟩ := hd.tokens_of_mem c hc
  obtain ⟨hn, hr⟩ := hu.name_mem
  exact ⟨hname _ (hsub hn), fun req hreq => hname _ (hsub (hr req hreq))⟩

/-- One blank before each token. -/
def singleSpaced : Style := fun _ => ([' '], '"')

theorem spaced_singleSpaced : singleSpaced.Spaced :=
  fun _ => ⟨.space (by decide) .nil, List.cons_ne_nil _ _, .inl rfl⟩

theorem compile_render {style : Style} (hp : p.Lexable u) (hs : style.Spaced) :
    compile u (p.render style) = .ok p := by
  refine compile_ok_iff.mpr ⟨p.tokens, ?_, p.tokens_derives⟩
  rw [ConstraintProgram.render, String.toList_ofList]
  exact layout_render (p.tokens_writable hp) hs

/-- The compiler's range is the programs whose names are identifiers other than keywords, and
what it returns for a text it returns again for any print of it. -/
theorem compile_range (u : Unicode) (p : ConstraintProgram) :
    ((∃ text, compile u text = .ok p) ↔ p.Lexable u) ∧
      ∀ style : Style, style.Spaced → ((∃ text, compile u text = .ok p) ↔
        compile u (p.render style) = .ok p) := by
  refine ⟨⟨?_, fun hp => ⟨_, compile_render hp spaced_singleSpaced⟩⟩, fun style hs => ⟨?_, ?_⟩⟩
  · rintro ⟨text, h⟩
    exact lexable_of_compile h
  · rintro ⟨text, h⟩
    exact compile_render (lexable_of_compile h) hs
  · exact fun h => ⟨_, h⟩

end HyperKitty.Constraints

namespace HyperKitty.Formalization.FormalizationMachine

open Constraints

/-- The kind and the id are joined by a hyphen, which no name has in it. -/
theorem exportConstraint_not_lexable (u : Unicode) (id : String) (inv : Invariant) :
    ¬ (exportConstraint id inv).Lexable u := by
  intro h
  have hyphen : '-' ∈ (exportConstraint id inv).name.toList := by
    simp only [exportConstraint, Constraint.new, Constraint.addRequirement, String.toList_append,
      List.mem_append]
    exact .inl (.inr (List.mem_singleton.mpr rfl))
  have hpart := isIdentPart_of_isName h.1 '-' hyphen
  rw [Unicode.isIdentPart_other (by decide) (by decide)] at hpart
  cases hpart

/-- An exported program has a source text exactly when there is nothing in it. -/
theorem exported_expressible_iff (u : Unicode) (t : Traversal) (m : FormalizationMachine) :
    (∃ program text, m.toConstraintProgram t = .ok program ∧ compile u text = .ok program) ↔
      ∀ id, m.registry.getInvariant id = none := by
  rw [toConstraintProgram_eq]
  constructor
  · rintro ⟨program, text, hp, h⟩ id
    cases hp
    by_contra hsome
    obtain ⟨inv, hinv⟩ := Option.ne_none_iff_exists'.mp hsome
    have hmem := (InvariantRegistry.mem_traversal t).mpr hinv
    exact exportConstraint_not_lexable u id inv
      (lexable_of_compile h _ (List.mem_map_of_mem hmem))
  · intro h
    have hnil : t.order m.registry.invariants.entries = [] := by
      rw [List.eq_nil_iff_forall_not_mem]
      rintro ⟨id, inv⟩ hmem
      have hinv := (InvariantRegistry.mem_traversal t).mp hmem
      rw [h id] at hinv
      cases hinv
    rw [hnil]
    exact ⟨⟨[]⟩, _, rfl, compile_render (List.forall_mem_nil _) spaced_singleSpaced⟩

end HyperKitty.Formalization.FormalizationMachine
