import Mathlib

/-- An amount, and the tag it is kept under. -/
@[ext] structure Account (G W : Type*) where
  amount : G
  tag : W

namespace Account

variable {G W : Type*} [AddCommMonoid G] {a c : Account G W} {as cs : List (Account G W)}

/-- Two accounts are joined where they have one tag. -/
def join [DecidableEq W] (a c : Account G W) : Option (Account G W) :=
  if a.tag = c.tag then some ⟨a.amount + c.amount, a.tag⟩ else none

/-- An account moves by the amount of another one, whose tag is the neutral one. -/
def shift [DecidableEq W] [Zero W] (a c : Account G W) : Option (Account G W) :=
  if c.tag = 0 then some ⟨a.amount + c.amount, a.tag⟩ else none

/-- The account after all of `cs` have been joined to it. -/
def extend (a : Account G W) (cs : List (Account G W)) : Account G W :=
  ⟨a.amount + (cs.map amount).sum, a.tag⟩

/-- What a collection of accounts comes to. -/
def total (cs : List (Account G W)) : G := (cs.map amount).sum

/-- The tag of a collection is that of its first member. -/
def tag? (cs : List (Account G W)) : Option W := cs.head?.map tag

/-- A collection admits the accounts under its own tag, and any account while it is empty. -/
def Admits (cs : List (Account G W)) (a : Account G W) : Prop := ∀ w ∈ tag? cs, a.tag = w

instance [DecidableEq W] (cs : List (Account G W)) (a : Account G W) : Decidable (Admits cs a) :=
  inferInstanceAs (Decidable (∀ w ∈ tag? cs, a.tag = w))

def taking [DecidableEq W] (cs : List (Account G W)) (a : Account G W) : List (Account G W) :=
  if Admits cs a then cs ++ [a] else cs

@[simp] theorem extend_nil (a : Account G W) : a.extend [] = a := by
  simp [extend]

theorem extend_cons (a c : Account G W) (cs : List (Account G W)) :
    a.extend (c :: cs) = extend ⟨a.amount + c.amount, a.tag⟩ cs := by
  simp [extend, add_assoc]

@[simp] theorem total_nil : total ([] : List (Account G W)) = 0 := rfl

@[simp] theorem total_append (as cs : List (Account G W)) :
    total (as ++ cs) = total as + total cs := by
  simp [total]

@[simp] theorem total_singleton (a : Account G W) : total [a] = a.amount := by
  simp [total]

/-- Joining a list of accounts one by one comes to their total. -/
theorem amount_extend (a : Account G W) (cs : List (Account G W)) :
    (a.extend cs).amount = total (a :: cs) := by
  simp [extend, total]

/-- The order in which accounts are taken in does not matter. -/
theorem total_perm (h : as.Perm cs) : total as = total cs := (h.map amount).sum_eq

theorem join_of_tag [DecidableEq W] (h : a.tag = c.tag) :
    a.join c = some ⟨a.amount + c.amount, a.tag⟩ := if_pos h

/-- To shift an account is to join it with the other amount, put under its own tag. -/
theorem shift_eq_join [DecidableEq W] [Zero W] (h : c.tag = 0) :
    a.shift c = a.join ⟨c.amount, a.tag⟩ := by
  rw [shift, if_pos h, join, if_pos rfl]

omit [AddCommMonoid G] in
@[simp] theorem admits_nil (a : Account G W) : Admits [] a := by
  simp [Admits, tag?]

omit [AddCommMonoid G] in
@[simp] theorem admits_cons (c a : Account G W) (cs : List (Account G W)) :
    Admits (c :: cs) a ↔ a.tag = c.tag := by
  simp [Admits, tag?, eq_comm]

omit [AddCommMonoid G] in
/-- A collection whose members share a tag admits another one that has it. -/
theorem admits_of_tag {w : W} (hc : ∀ c ∈ cs, c.tag = w) (ha : a.tag = w) : Admits cs a := by
  cases cs with
  | nil => exact admits_nil a
  | cons c cs => rw [admits_cons, ha, hc c List.mem_cons_self]

end Account
