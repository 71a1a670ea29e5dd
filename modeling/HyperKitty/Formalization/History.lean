import HyperKitty.Formalization.Machine

namespace HyperKitty.Formalization

open FormalizationMachine

/-- The invariant that the call emits an artifact of the prover for. -/
def Op.emits (p : Prover) : Op → Option String
  | .emit q invariantId _ _ => if q = p then some invariantId else none
  | _ => none

/-- The obligation that the call creates. -/
def Op.obliges : Op → Option CorrespondenceObligation
  | .createHolLeanCorrespondence invariantId => some (holLeanObligation invariantId)
  | .createLeanAgdaCorrespondence invariantId => some (leanAgdaObligation invariantId)
  | _ => none

def emitted (p : Prover) (ops : List Op) : List String := ops.filterMap (Op.emits p)

def obliged (ops : List Op) : List CorrespondenceObligation := ops.filterMap Op.obliges

structure Recording where
  prover : Prover
  artifactId : String
  status : ProverStatus
  deriving DecidableEq

/-- What the call records in the machine, unless the machine refuses it. -/
def Op.records (m : FormalizationMachine) : Op → Option Recording
  | .record p artifactId status =>
    match (recordStatus p m artifactId status).1 with
    | .ok _ => some ⟨p, artifactId, status⟩
    | .error _ => none
  | _ => none

/-- What a run records, in order. -/
def recordings (m : FormalizationMachine) : List Op → List Recording
  | [] => []
  | op :: ops => (op.records m).toList ++ recordings (m.step op) ops

def lastStatus (p : Prover) (artifactId : String) (rs : List Recording) : Option ProverStatus :=
  (rs.reverse.find? fun r => r.prover = p ∧ r.artifactId = artifactId).map Recording.status

def recordedIds (p : Prover) (rs : List Recording) : List String :=
  ((rs.filter (·.prover = p)).map Recording.artifactId).dedup

/-- The artifacts whose most recent recording says that they are verified. -/
def verifiedIds (p : Prover) (rs : List Recording) : List String :=
  (recordedIds p rs).filter fun artifactId => lastStatus p artifactId rs = some .verified

@[simp] theorem emitted_snoc (p : Prover) (ops : List Op) (op : Op) :
    emitted p (ops ++ [op]) = emitted p ops ++ (op.emits p).toList := by
  cases h : op.emits p <;> simp [emitted, h]

@[simp] theorem obliged_snoc (ops : List Op) (op : Op) :
    obliged (ops ++ [op]) = obliged ops ++ op.obliges.toList := by
  cases h : op.obliges <;> simp [obliged, h]

@[simp] theorem run_snoc (m : FormalizationMachine) (ops : List Op) (op : Op) :
    m.run (ops ++ [op]) = (m.run ops).step op := by
  simp [run]

@[simp] theorem recordings_snoc (m : FormalizationMachine) (ops : List Op) (op : Op) :
    recordings m (ops ++ [op]) = recordings m ops ++ (op.records (m.run ops)).toList := by
  induction ops generalizing m with
  | nil => simp [recordings, run]
  | cons o ops ih => rw [List.cons_append, recordings, ih, recordings, List.append_assoc]; rfl

theorem lastStatus_snoc (p : Prover) (artifactId : String) (rs : List Recording) (r : Recording) :
    lastStatus p artifactId (rs ++ [r]) =
      if r.prover = p ∧ r.artifactId = artifactId then some r.status
      else lastStatus p artifactId rs := by
  rw [lastStatus, List.reverse_append, List.reverse_singleton, List.singleton_append]
  by_cases h : r.prover = p ∧ r.artifactId = artifactId
  · rw [List.find?_cons_of_pos (by simpa using h), if_pos h]
    rfl
  · rw [List.find?_cons_of_neg (by simpa using h), if_neg h]
    rfl

theorem mem_recordedIds : artifactId ∈ recordedIds p rs ↔
    ∃ r ∈ rs, r.prover = p ∧ r.artifactId = artifactId := by
  simp [recordedIds, and_assoc]

/-- Nothing is told of an artifact that was never recorded. -/
theorem lastStatus_eq_none (h : artifactId ∉ recordedIds p rs) :
    lastStatus p artifactId rs = none := by
  rw [lastStatus, Option.map_eq_none_iff, List.find?_eq_none]
  intro r hr
  rw [mem_recordedIds] at h
  push Not at h
  simpa using h r (List.mem_reverse.mp hr)

theorem verifiedIds_nodup (p : Prover) (rs : List Recording) : (verifiedIds p rs).Nodup :=
  (List.nodup_dedup _).filter _

theorem mem_verifiedIds :
    artifactId ∈ verifiedIds p rs ↔ lastStatus p artifactId rs = some .verified := by
  rw [verifiedIds, List.mem_filter, decide_eq_true_eq]
  apply and_iff_right_of_imp
  intro h
  by_contra hn
  rw [lastStatus_eq_none hn] at h
  cases h

end HyperKitty.Formalization
