import HyperKitty.Runtime.Tick

namespace HyperKitty.Runtime

variable {sha256 : List UInt8 → Hash} {quote : String → String}

/-- A tick is what `Tick::new` makes of its fields, and ends where its action leads. -/
structure Tick.Genuine (sha256 : List UInt8 → Hash) (quote : String → String) (t : Tick) :
    Prop where
  receipt_eq : t = Tick.new sha256 quote t.index t.sigmaIn t.action t.sigmaOut
  out_eq : t.action.apply t.sigmaIn = .ok t.sigmaOut

/-- The runtime has recorded `actions`. -/
structure Records (sha256 : List UInt8 → Hash) (quote : String → String) (actions : List Action)
    (rt : Runtime) : Prop where
  actions_eq : rt.tickHistory.map Tick.action = actions
  index_eq : rt.tickHistory.map Tick.index =
    (List.range rt.tickHistory.length).map UInt64.ofNat
  genuine : ∀ t ∈ rt.tickHistory, t.Genuine sha256 quote
  linked : transitions.Linked .new rt.tickHistory
  counter_eq : rt.currentIndex = .ofNat rt.tickHistory.length
  current_eq : rt.currentState = transitions.tip .new rt.tickHistory
  fold_eq : rt.currentState = (actions.flatMap Action.flatten).foldl Update.run .new

theorem records_new : Records sha256 quote [] .new where
  actions_eq := rfl
  index_eq := rfl
  genuine := nofun
  linked := trivial
  counter_eq := rfl
  current_eq := rfl
  fold_eq := rfl

/-- Each call adds the tick of its action. -/
theorem Records.advance {actions : List Action} {rt : Runtime}
    (h : Records sha256 quote actions rt) (a : Action) :
    ∃ rt', rt.advanceTick sha256 quote a = .ok rt' ∧
      Records sha256 quote (actions ++ [a]) rt' := by
  have happly := a.apply_eq rt.currentState
  let out := a.flatten.foldl Update.run rt.currentState
  let tick := Tick.new sha256 quote rt.currentIndex rt.currentState a out
  refine ⟨⟨out, rt.tickHistory ++ [tick], rt.currentIndex + 1⟩, ?_, ?_⟩
  · rw [Runtime.advanceTick, happly]
    rfl
  · constructor
    · rw [List.map_append, h.actions_eq]
      rfl
    · rw [List.map_append, h.index_eq, List.length_append, List.length_singleton,
        List.range_succ, List.map_append, List.map_singleton, List.map_singleton, ← h.counter_eq]
      rfl
    · intro t ht
      rcases List.mem_append.mp ht with ht | ht
      · exact h.genuine t ht
      · rw [List.mem_singleton.mp ht]
        exact ⟨rfl, happly⟩
    · exact Linking.linked_snoc.mpr ⟨h.linked, h.current_eq⟩
    · rw [h.counter_eq, List.length_append, UInt64.ofNat_add]
      rfl
    · exact (Linking.tip_snoc (L := transitions) (r := tick)).symm
    · rw [List.flatMap_append, List.foldl_append, ← h.fold_eq, List.flatMap_singleton]

/-- Any calls go well, and what they did is recorded. -/
theorem run_records (sha256 : List UInt8 → Hash) (quote : String → String) (actions : List Action) :
    ∃ rt, Runtime.run sha256 quote actions = .ok rt ∧ Records sha256 quote actions rt := by
  induction actions using List.reverseRecOn with
  | nil => exact ⟨.new, rfl, records_new⟩
  | append_singleton actions a ih =>
    obtain ⟨rt, hrun, hrt⟩ := ih
    obtain ⟨rt', hadvance, hrt'⟩ := hrt.advance a
    refine ⟨rt', ?_, hrt'⟩
    rw [Runtime.run] at hrun
    rw [Runtime.run, List.foldlM_append, hrun]
    change List.foldlM (Runtime.advanceTick sha256 quote) rt [a] = .ok rt'
    rw [List.foldlM_cons, hadvance]
    rfl

theorem Records.index {actions : List Action} {rt : Runtime} (h : Records sha256 quote actions rt)
    {i : Nat} {t : Tick} (ht : rt.tickHistory[i]? = some t) : t.index = .ofNat i := by
  have hi := congrArg (·[i]?) h.index_eq
  obtain ⟨hlt, rfl⟩ := List.getElem?_eq_some_iff.mp ht
  simpa [hlt] using hi

/-- The history of ticks is a faithful trace of the actions, and the current state is what
their single changes make of the empty world. -/
theorem history_is_trace (sha256 : List UInt8 → Hash) (quote : String → String)
    (actions : List Action) :
    ∃ rt, Runtime.run sha256 quote actions = .ok rt ∧
      rt.tickHistory.map Tick.action = actions ∧
      (∀ (i : Nat) (t : Tick), rt.tickHistory[i]? = some t →
        t.index = .ofNat i ∧ (i < 2 ^ 64 → t.index.toNat = i) ∧
          t.action.apply t.sigmaIn = .ok t.sigmaOut) ∧
      (∀ t : Tick, rt.tickHistory[0]? = some t → t.sigmaIn = .new) ∧
      (∀ (i : Nat) (t u : Tick), rt.tickHistory[i]? = some t →
        rt.tickHistory[i + 1]? = some u → t.sigmaOut = u.sigmaIn) ∧
      rt.currentState = (actions.flatMap Action.flatten).foldl Update.run .new ∧
      ∀ t : Tick, rt.tickHistory.getLast? = some t → rt.currentState = t.sigmaOut := by
  obtain ⟨rt, hrun, h⟩ := run_records sha256 quote actions
  refine ⟨rt, hrun, h.actions_eq, ?_, ?_, ?_, h.fold_eq, ?_⟩
  · intro i t ht
    have hi := h.index ht
    refine ⟨hi, ?_, (h.genuine t (List.mem_of_getElem? ht)).out_eq⟩
    intro hlt
    rw [hi]
    exact UInt64.toNat_ofNat_of_lt' hlt
  · intro t ht
    exact h.linked.head t (List.head?_eq_getElem? ▸ ht)
  · intro i t u ht hu
    obtain ⟨hlt, rfl⟩ := List.getElem?_eq_some_iff.mp ht
    obtain ⟨hlt', rfl⟩ := List.getElem?_eq_some_iff.mp hu
    exact (h.linked.getElem i hlt').symm
  · intro t ht
    rw [h.current_eq, Linking.tip, ht]
    rfl

end HyperKitty.Runtime
