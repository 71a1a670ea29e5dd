import HyperKitty.Lib.Overwrite
import HyperKitty.Proofs.TickReceipts

namespace HyperKitty.Runtime

open Overwrite

namespace WorldState

/-- A fact is set or removed. -/
def put (w : WorldState) (key : String) : Option String → WorldState
  | some value => w.set key value
  | none => w.remove key

theorem get_set (w : WorldState) (key value key' : String) :
    (w.set key value).get key' = if key = key' then some value else w.get key' := by
  simp [get, set, Std.ExtTreeMap.getElem?_insert]

theorem get_remove (w : WorldState) (key key' : String) :
    (w.remove key).get key' = if key = key' then none else w.get key' := by
  simp [get, remove, Std.ExtTreeMap.getElem?_erase]

theorem lawful : Lawful (fun _ => True) get put fun _ => True where
  keeps := fun _ _ _ _ => trivial
  hit := fun w key value _ _ => by
    cases value with
    | some value => rw [put, get_set, if_pos rfl]
    | none => rw [put, get_remove, if_pos rfl]
  other := fun w key value key' _ hne => by
    cases value with
    | some value => rw [put, get_set, if_neg hne.symm]
    | none => rw [put, get_remove, if_neg hne.symm]
  lost := fun _ _ _ _ h => absurd trivial h

theorem eq_of_get {w w' : WorldState} (h : ∀ key, w.get key = w'.get key) : w = w' := by
  obtain ⟨facts⟩ := w
  obtain ⟨facts'⟩ := w'
  exact congrArg mk (Std.ExtTreeMap.ext_getElem? h)

section Text

variable {quote : String → String}

/-- The characters of a fact in the debug text. -/
def factText (quote : String → String) (f : String × String) : List Char :=
  (quote f.1).toList ++ (": ".toList ++ (quote f.2).toList)

theorem factText_readable (hquote : Readable fun s => (quote s).toList) :
    Readable (factText quote) := by
  intro f f' x y h
  simp only [factText, List.append_assoc] at h
  obtain ⟨hkey, h⟩ := hquote _ _ _ _ h
  obtain ⟨hvalue, h⟩ := hquote _ _ _ _ (List.append_cancel_left h)
  exact ⟨Prod.ext hkey hvalue, h⟩

theorem debug_toList (w : WorldState) : (w.debug quote).toList =
    '\x7b' :: ((',' :: [' ']).intercalate (w.facts.toList.map (factText quote)) ++ ['\x7d']) := by
  have hfact : String.toList ∘ (fun f : String × String => quote f.1 ++ ": " ++ quote f.2) =
      factText quote := by
    funext f
    simp [factText]
  simp [debug, hfact]

/-- Two worlds have the same text only if they have the same facts. -/
theorem debug_injective (hquote : Readable fun s => (quote s).toList)
    (hopen : ∀ s, ∃ cs, (quote s).toList = '"' :: cs) : (debug quote).Injective := by
  intro w w' h
  have hstop : Avoids (factText quote) '\x7d' := by
    intro f
    obtain ⟨cs, hcs⟩ := hopen f.1
    exact ⟨'"', cs ++ (": ".toList ++ (quote f.2).toList), by rw [factText, hcs]; rfl, by decide⟩
  have htext := congrArg String.toList h
  rw [debug_toList, debug_toList, List.cons.injEq] at htext
  obtain ⟨hfacts, -⟩ := intercalate_readable (by decide) hstop
    (fun f _ => factText_readable hquote f) htext.2
  obtain ⟨facts⟩ := w
  obtain ⟨facts'⟩ := w'
  exact congrArg mk (Std.ExtTreeMap.toList_inj.mp hfacts)

end Text

end WorldState

/-- The key that is changed, and what it is changed to. -/
def Update.write : Update → String × Option String
  | set k v => (k, some v)
  | remove k => (k, none)

theorem Update.run_eq (world : WorldState) (update : Update) :
    update.run world = world.put update.write.1 update.write.2 := by
  cases update <;> rfl

/-- What the last of the changes in the actions leaves of a fact. -/
def factAfter (actions : List Action) (key : String) : Option String :=
  (lastWrite key ((actions.flatMap Action.flatten).map Update.write)).getD none

theorem get_foldl_run (updates : List Update) (key : String) :
    (updates.foldl Update.run .new).get key =
      (lastWrite key (updates.map Update.write)).getD none := by
  have hall : updates.foldl Update.run .new =
      putAll WorldState.put .new (updates.map Update.write) := by
    rw [putAll, List.foldl_map]
    simp only [← Update.run_eq]
  rw [hall, WorldState.lawful.get_putAll trivial trivial]
  rfl

variable {sha256 : List UInt8 → Hash} {quote : String → String}

/-- After any run a fact is what the last change of it made of it, in whatever batches, and the
hashes of two worlds agree exactly if all of their facts do. -/
theorem run_hash_eq_iff (hsha : sha256.Injective) (hquote : Readable fun s => (quote s).toList)
    (hopen : ∀ s, ∃ cs, (quote s).toList = '"' :: cs) (actions actions' : List Action) :
    ∃ rt rt', Runtime.run sha256 quote actions = .ok rt ∧
      Runtime.run sha256 quote actions' = .ok rt' ∧
      (∀ key, rt.currentState.get key = factAfter actions key) ∧
      (rt.currentState.hash sha256 quote = rt'.currentState.hash sha256 quote ↔
        ∀ key, factAfter actions key = factAfter actions' key) := by
  obtain ⟨rt, hrun, hrt⟩ := run_records sha256 quote actions
  obtain ⟨rt', hrun', hrt'⟩ := run_records sha256 quote actions'
  have hget : ∀ key, rt.currentState.get key = factAfter actions key := by
    intro key
    rw [hrt.fold_eq, get_foldl_run]
    rfl
  have hget' : ∀ key, rt'.currentState.get key = factAfter actions' key := by
    intro key
    rw [hrt'.fold_eq, get_foldl_run]
    rfl
  refine ⟨rt, rt', hrun, hrun', hget, ?_, ?_⟩
  · intro h key
    have hworld := WorldState.debug_injective hquote hopen (asBytes_inj.mp (hsha h))
    rw [← hget, ← hget', hworld]
  · intro h
    have hworld : rt.currentState = rt'.currentState :=
      WorldState.eq_of_get fun key => by rw [hget, hget', h]
    rw [hworld]

theorem plainQuote_opens (s : String) : ∃ cs, (plainQuote s).toList = '"' :: cs :=
  ⟨_, String.toList_ofList⟩

/-- A fact that is set and removed again in a batch leaves no trace in the hash. -/
theorem run_hash_eq_batch : ∃ rt rt',
    Runtime.run Hash.mk plainQuote
      [.setFact "a" "1", .batch [.removeFact "a", .batch [.setFact "b" "2"]]] = .ok rt ∧
    Runtime.run Hash.mk plainQuote [.setFact "b" "2"] = .ok rt' ∧
    (∀ key, rt.currentState.get key = factAfter
      [.setFact "a" "1", .batch [.removeFact "a", .batch [.setFact "b" "2"]]] key) ∧
    (rt.currentState.hash Hash.mk plainQuote = rt'.currentState.hash Hash.mk plainQuote ↔
      ∀ key, factAfter [.setFact "a" "1", .batch [.removeFact "a", .batch [.setFact "b" "2"]]] key =
        factAfter [.setFact "b" "2"] key) :=
  run_hash_eq_iff hash_injective plainQuote_readable plainQuote_opens _ _

end HyperKitty.Runtime
