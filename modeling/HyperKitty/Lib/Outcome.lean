import Mathlib

/-- How a request to commit a value ends. -/
inductive Outcome (β : Type*) where
  | accepted (b : β)
  | rejected
  | ignored

namespace Outcome

variable {β : Type*} {initial : β} {os : List (Outcome β)}

def value? : Outcome β → Option β
  | accepted b => some b
  | _ => none

def isRejected : Outcome β → Bool
  | rejected => true
  | _ => false

def isIgnored : Outcome β → Bool
  | ignored => true
  | _ => false

/-- The values that were accepted, in order. -/
def accepts (os : List (Outcome β)) : List β := os.filterMap value?

/-- The value accepted last, or the one to begin with. -/
def lastAccepted (initial : β) (os : List (Outcome β)) : β := (accepts os).getLast?.getD initial

@[simp] theorem accepts_accepted (os : List (Outcome β)) (b : β) :
    accepts (os ++ [accepted b]) = accepts os ++ [b] := by
  simp [accepts, value?]

@[simp] theorem accepts_rejected (os : List (Outcome β)) :
    accepts (os ++ [rejected]) = accepts os := by
  rw [accepts, List.filterMap_append]
  exact List.append_nil _

@[simp] theorem accepts_ignored (os : List (Outcome β)) :
    accepts (os ++ [ignored]) = accepts os := by
  rw [accepts, List.filterMap_append]
  exact List.append_nil _

theorem length_eq (os : List (Outcome β)) :
    (accepts os).length + os.countP isRejected + os.countP isIgnored = os.length := by
  induction os using List.reverseRecOn with
  | nil => rfl
  | append_singleton os o ih =>
    rw [List.countP_append, List.countP_append, List.length_append, ← ih]
    cases o with
    | accepted b =>
      rw [accepts_accepted, List.length_append]
      simp [isRejected, isIgnored]
      omega
    | rejected =>
      rw [accepts_rejected]
      simp [isRejected, isIgnored]
      omega
    | ignored =>
      rw [accepts_ignored]
      simp [isRejected, isIgnored]
      omega

/-- A committed value and three counters tell what the outcomes were. -/
structure Accounts (initial : β) (os : List (Outcome β)) (value : β)
    (commits acceptances rejections : UInt64) : Prop where
  value_eq : value = lastAccepted initial os
  commits_eq : commits = acceptances
  acceptances_eq : acceptances = .ofNat (accepts os).length
  rejections_eq : rejections = .ofNat (os.countP isRejected)

namespace Accounts

variable {value : β} {commits acceptances rejections : UInt64}

theorem start : Accounts initial [] initial 0 0 0 := ⟨rfl, rfl, rfl, rfl⟩

theorem accept (h : Accounts initial os value commits acceptances rejections) (b : β) :
    Accounts initial (os ++ [accepted b]) b (commits + 1) (acceptances + 1) rejections where
  value_eq := by simp [lastAccepted]
  commits_eq := by rw [h.commits_eq]
  acceptances_eq := by
    rw [h.acceptances_eq, accepts_accepted, List.length_append, UInt64.ofNat_add]
    rfl
  rejections_eq := by
    rw [h.rejections_eq]
    simp [isRejected]

theorem reject (h : Accounts initial os value commits acceptances rejections) :
    Accounts initial (os ++ [rejected]) value commits acceptances (rejections + 1) where
  value_eq := by
    rw [h.value_eq]
    simp [lastAccepted]
  commits_eq := h.commits_eq
  acceptances_eq := by
    rw [h.acceptances_eq, accepts_rejected]
  rejections_eq := by
    rw [h.rejections_eq, List.countP_append, UInt64.ofNat_add]
    rfl

theorem ignore (h : Accounts initial os value commits acceptances rejections) :
    Accounts initial (os ++ [ignored]) value commits acceptances rejections where
  value_eq := by
    rw [h.value_eq]
    simp [lastAccepted]
  commits_eq := h.commits_eq
  acceptances_eq := by
    rw [h.acceptances_eq, accepts_ignored]
  rejections_eq := by
    rw [h.rejections_eq]
    simp [isRejected]

/-- Every outcome that is not ignored is counted once. -/
theorem counted (h : Accounts initial os value commits acceptances rejections) :
    acceptances + rejections + .ofNat (os.countP isIgnored) = .ofNat os.length := by
  rw [h.acceptances_eq, h.rejections_eq, ← UInt64.ofNat_add, ← UInt64.ofNat_add, length_eq]

end Accounts

end Outcome
