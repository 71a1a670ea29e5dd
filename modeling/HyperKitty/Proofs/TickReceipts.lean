import HyperKitty.Lib.Readable
import HyperKitty.Proofs.Ticks

namespace HyperKitty.Runtime

section DebugText

variable {quote : String → String}

/-- The characters of the debug text. -/
def Action.debugText (quote : String → String) (a : Action) : List Char := (a.debug quote).toList

theorem debugText_setFact (k v : String) : Action.debugText quote (.setFact k v) =
    'S' :: ("etFact(".toList ++ ((quote k).toList ++ (", ".toList ++
      ((quote v).toList ++ [')'])))) := by
  simp [Action.debugText, Action.debug]

theorem debugText_removeFact (k : String) : Action.debugText quote (.removeFact k) =
    'R' :: ("emoveFact(".toList ++ ((quote k).toList ++ [')'])) := by
  simp [Action.debugText, Action.debug]

theorem debugText_batch (acts : List Action) : Action.debugText quote (.batch acts) =
    'B' :: ("atch([".toList ++ ((',' :: [' ']).intercalate (acts.map (Action.debugText quote)) ++
      [']', ')'])) := by
  simp [Action.debugText, Action.debug]
  rfl

/-- The first letter of the debug text. -/
def Action.initial : Action → Char
  | setFact _ _ => 'S'
  | removeFact _ => 'R'
  | batch _ => 'B'

theorem debugText_cons (quote : String → String) (a : Action) :
    ∃ cs, Action.debugText quote a = a.initial :: cs := by
  cases a with
  | setFact k v => exact ⟨_, debugText_setFact k v⟩
  | removeFact k => exact ⟨_, debugText_removeFact k⟩
  | batch acts => exact ⟨_, debugText_batch acts⟩

/-- Texts that go on alike begin with the same letter. -/
theorem initial_eq {a c : Action} {x y : List Char}
    (h : Action.debugText quote a ++ x = Action.debugText quote c ++ y) :
    a.initial = c.initial := by
  obtain ⟨cs, hcs⟩ := debugText_cons quote a
  obtain ⟨ds, hds⟩ := debugText_cons quote c
  rw [hcs, hds] at h
  exact (List.cons.inj h).1

theorem debugText_avoids (quote : String → String) : Avoids (Action.debugText quote) ']' := by
  intro a
  obtain ⟨cs, hcs⟩ := debugText_cons quote a
  refine ⟨a.initial, cs, hcs, ?_⟩
  cases a <;> simp [Action.initial]

/-- The debug text of an action can be read in one way, if that of a string can. -/
theorem debugText_readable (hquote : Readable fun s => (quote s).toList) :
    Readable (Action.debugText quote) := by
  intro a
  induction a using Action.induction with
  | setFact k v =>
    intro b x y h
    cases b with
    | setFact k' v' =>
      simp only [debugText_setFact, List.cons_append, List.append_assoc, List.cons.injEq, true_and,
        List.append_cancel_left_eq] at h
      obtain ⟨hk, h⟩ := hquote k _ _ _ h
      obtain ⟨hv, h⟩ := hquote v _ _ _ (List.append_cancel_left h)
      exact ⟨by rw [hk, hv], (List.cons.inj h).2⟩
    | removeFact k' => exact absurd (initial_eq h) (by simp [Action.initial])
    | batch acts => exact absurd (initial_eq h) (by simp [Action.initial])
  | removeFact k =>
    intro b x y h
    cases b with
    | setFact k' v' => exact absurd (initial_eq h) (by simp [Action.initial])
    | removeFact k' =>
      simp only [debugText_removeFact, List.cons_append, List.append_assoc, List.cons.injEq,
        true_and, List.append_cancel_left_eq] at h
      obtain ⟨hk, h⟩ := hquote k _ _ _ h
      exact ⟨by rw [hk], (List.cons.inj h).2⟩
    | batch acts => exact absurd (initial_eq h) (by simp [Action.initial])
  | batch acts ih =>
    intro b x y h
    cases b with
    | setFact k' v' => exact absurd (initial_eq h) (by simp [Action.initial])
    | removeFact k' => exact absurd (initial_eq h) (by simp [Action.initial])
    | batch acts' =>
      simp only [debugText_batch, List.cons_append, List.append_assoc, List.cons.injEq, true_and,
        List.append_cancel_left_eq] at h
      obtain ⟨hacts, h⟩ := intercalate_readable (by decide) (debugText_avoids quote) ih h
      exact ⟨by rw [hacts], (List.cons.inj h).2⟩

theorem debug_injective (hquote : Readable fun s => (quote s).toList) :
    Function.Injective (Action.debug quote) := by
  intro a b h
  exact (debugText_readable hquote).injective (congrArg String.toList h)

/-- The index and the text of the action are read off what the receipt is taken over. -/
theorem receiptText_inj {i j : UInt64} {a c : Action}
    (h : toString i ++ a.debug quote = toString j ++ c.debug quote) :
    i = j ∧ a.debug quote = c.debug quote := by
  have hdigit : ∀ a : Action, ∀ c ∈ (Action.debugText quote a).head?, c.isDigit = false := by
    intro a
    obtain ⟨cs, hcs⟩ := debugText_cons quote a
    rw [hcs]
    cases a <;> simp [Action.initial]
  have htext : Nat.toDigits 10 i.toNat ++ Action.debugText quote a =
      Nat.toDigits 10 j.toNat ++ Action.debugText quote c := by
    have h := congrArg String.toList h
    simpa [toString, Nat.repr, Action.debugText] using h
  obtain ⟨hi, ht⟩ := toDigits_readable (hdigit a) (hdigit c) htext
  exact ⟨UInt64.toNat_inj.mp hi, String.toList_inj.mp ht⟩

end DebugText

variable {sha256 : List UInt8 → Hash} {quote : String → String} {t t₁ t₂ : Tick}

/-- A tick of the history of some run. -/
def Issued (sha256 : List UInt8 → Hash) (quote : String → String) (t : Tick) : Prop :=
  ∃ actions rt, Runtime.run sha256 quote actions = .ok rt ∧ t ∈ rt.tickHistory

theorem Issued.genuine (h : Issued sha256 quote t) : t.Genuine sha256 quote := by
  obtain ⟨actions, rt, hrun, ht⟩ := h
  obtain ⟨rt', hrun', hrt⟩ := run_records sha256 quote actions
  rw [hrun] at hrun'
  cases hrun'
  exact hrt.genuine t ht

/-- Equal receipts are for equal transitions. -/
def Commits (t₁ t₂ : Tick) : Prop :=
  t₁.receipt = t₂.receipt →
    t₁.index = t₂.index ∧ t₁.action = t₂.action ∧ t₁.sigmaIn = t₂.sigmaIn ∧
      t₁.sigmaOut = t₂.sigmaOut

/-- One tick has another state or action, and is otherwise as it was. -/
def Tampered (ticks ticks' : List Tick) : Prop :=
  ∃ i t t', ticks[i]? = some t ∧ ticks' = ticks.set i t' ∧ t'.receipt = t.receipt ∧
    t'.index = t.index ∧
    (t'.sigmaIn ≠ t.sigmaIn ∧ t'.action = t.action ∧ t'.sigmaOut = t.sigmaOut ∨
      t'.sigmaIn = t.sigmaIn ∧ t'.action ≠ t.action ∧ t'.sigmaOut = t.sigmaOut ∨
      t'.sigmaIn = t.sigmaIn ∧ t'.action = t.action ∧ t'.sigmaOut ≠ t.sigmaOut)

/-- The receipts of two ticks agree exactly where their indices and actions do. -/
theorem receipt_eq_iff (hsha : sha256.Injective) (hdebug : (Action.debug quote).Injective)
    (h₁ : t₁.Genuine sha256 quote) (h₂ : t₂.Genuine sha256 quote) :
    t₁.receipt = t₂.receipt ↔ t₁.index = t₂.index ∧ t₁.action = t₂.action := by
  rw [h₁.receipt_eq, h₂.receipt_eq]
  simp only [Tick.new]
  constructor
  · intro h
    obtain ⟨hi, ha⟩ := receiptText_inj (asBytes_inj.mp (hsha h))
    exact ⟨hi, hdebug ha⟩
  · intro h
    rw [h.1, h.2]

theorem verifyAllTicks_eq_true (rt : Runtime) : rt.verifyAllTicks = true := by
  rw [Runtime.verifyAllTicks, List.all_eq_true]
  exact fun _ _ => rfl

/-- A receipt commits to the index and the action, but not to the states, and verification
finds nothing of what has been tampered with. -/
theorem commits_iff_same_state (hsha : sha256.Injective)
    (hdebug : (Action.debug quote).Injective) :
    (∀ t₁ t₂, Issued sha256 quote t₁ → Issued sha256 quote t₂ →
      (Commits t₁ t₂ ↔
        ¬ (t₁.index = t₂.index ∧ t₁.action = t₂.action ∧ t₁.sigmaIn ≠ t₂.sigmaIn))) ∧
    ∀ actions rt ticks, Runtime.run sha256 quote actions = .ok rt →
      Tampered rt.tickHistory ticks →
        Runtime.verifyAllTicks { rt with tickHistory := ticks } ≠ false := by
  constructor
  · intro t₁ t₂ h₁ h₂
    have h₁ := h₁.genuine
    have h₂ := h₂.genuine
    rw [Commits, receipt_eq_iff hsha hdebug h₁ h₂]
    constructor
    · intro h hne
      obtain ⟨hi, ha, hs⟩ := hne
      exact hs (h ⟨hi, ha⟩).2.2.1
    · intro h hia
      have hs : t₁.sigmaIn = t₂.sigmaIn := by
        by_contra hs
        exact h ⟨hia.1, hia.2, hs⟩
      have hout := h₁.out_eq
      rw [hia.2, hs, h₂.out_eq] at hout
      exact ⟨hia.1, hia.2, hs, (Except.ok.inj hout).symm⟩
  · intro actions rt ticks _ _
    rw [verifyAllTicks_eq_true]
    decide

/-- Quotes around the string, and a backslash before quotes and backslashes in it. -/
def plainQuote (s : String) : String := .ofList (quoted '"' '\\' s.toList)

theorem plainQuote_readable : Readable fun s => (plainQuote s).toList := by
  intro s t x y h
  simp only [plainQuote, String.toList_ofList] at h
  obtain ⟨hst, hxy⟩ := quoted_readable (by decide) _ _ _ _ h
  exact ⟨String.toList_inj.mp hst, hxy⟩

/-- The second tick of a run that has set `x` to `value` and then sets another fact. -/
def secondTick (value : String) : Tick :=
  let world := WorldState.new.set "x" value
  Tick.new Hash.mk plainQuote 1 world (.setFact "k" "v") (world.set "k" "v")

theorem issued_secondTick (value : String) : Issued Hash.mk plainQuote (secondTick value) :=
  ⟨[.setFact "x" value, .setFact "k" "v"], _, rfl, .tail _ (.head _)⟩

theorem hash_injective : Function.Injective Hash.mk := fun _ _ h => by simpa using h

/-- The hash that keeps the whole text takes the place of SHA-256. -/
theorem commits_iff_same_state_second :
    Commits (secondTick "1") (secondTick "2") ↔
      ¬ ((secondTick "1").index = (secondTick "2").index ∧
        (secondTick "1").action = (secondTick "2").action ∧
        (secondTick "1").sigmaIn ≠ (secondTick "2").sigmaIn) :=
  (commits_iff_same_state hash_injective (debug_injective plainQuote_readable)).1 _ _
    (issued_secondTick "1") (issued_secondTick "2")

/-- The receipts of the second ticks are the same, and the values of `x` are not. -/
theorem commits_not_always :
    ¬ ∀ (sha256 : List UInt8 → Hash) (quote : String → String), sha256.Injective →
      (Action.debug quote).Injective → ∀ t₁ t₂, Issued sha256 quote t₁ →
        Issued sha256 quote t₂ → Commits t₁ t₂ := by
  intro h
  obtain ⟨-, -, hs, -⟩ := h Hash.mk plainQuote hash_injective
    (debug_injective plainQuote_readable) _ _ (issued_secondTick "1") (issued_secondTick "2") rfl
  have hx := congrArg (WorldState.get · "x") hs
  simp [secondTick, Tick.new, WorldState.get, WorldState.set] at hx

end HyperKitty.Runtime
