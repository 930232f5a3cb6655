import Mathlib.Tactic.Common

/-!
# Blocks of slots

A block of memory that holds an array: it is read and written within its slots only.  Out of bounds there is no
result.
-/

/-- A block of memory, slot by slot. -/
abbrev Slots (α : Type) := List α

namespace Slots

variable {α : Type} {xs ys : Slots α} {i n : Nat}

def load (xs : Slots α) (i : Nat) : Option α := xs[i]?

def store (xs : Slots α) (i : Nat) (a : α) : Option (Slots α) := if i < xs.length then some
    (xs.set i a) else none

/-- `n` slots from `src` on are copied to `dst`. -/
def memmove (xs : Slots α) (dst src n : Nat) : Option (Slots α) :=
  if dst + n ≤ xs.length ∧ src + n ≤ xs.length then
    some (xs.take dst ++ (xs.drop src).take n ++ xs.drop (dst + n))
  else none

/-- The block gets `n` slots; those that are new hold `fresh`. -/
def realloc (fresh : Nat → α) (xs : Slots α) (n : Nat) : Slots α :=
  (List.range n).map fun i => xs[i]?.getD (fresh i)

theorem store_eq (h : i < xs.length) (a : α) : store xs i a = some (xs.set i a) := if_pos h

/-- Below its destination, `memmove` leaves the block as it is. -/
theorem memmove_below {dst src : Nat} (h : memmove xs dst src n = some ys) (hi : i < dst) :
    ys[i]? = xs[i]? := by
  unfold memmove at h
  split at h
  · rename_i hle
    have hlen : (xs.take dst).length = dst := by
      rw [List.length_take]
      omega
    rw [← Option.some.inj h, List.append_assoc, List.getElem?_append_left (by omega),
      List.getElem?_take_of_lt hi]
  · cases h

theorem length_memmove {dst src : Nat} (h : memmove xs dst src n = some ys) : ys.length = xs.length := by
  unfold memmove at h
  split at h
  · cases h
    simp
    omega
  · cases h

@[simp] theorem length_realloc (fresh : Nat → α) (xs : Slots α) (n : Nat) :
    (realloc fresh xs n).length = n := by
  simp [realloc]

theorem realloc_getElem? (fresh : Nat → α) (hi : i < xs.length) (hn : i < n) :
    (realloc fresh xs n)[i]? = xs[i]? := by
  simp [realloc, hn, hi]

/-- As many slots as a block keeps -/
theorem take_realloc (fresh : Nat → α) {m : Nat} (hlen : n ≤ xs.length) (hm : n ≤ m) :
    (realloc fresh xs m).take n = xs.take n := by
  apply List.ext_getElem?
  intro i
  by_cases hi : i < n
  · rw [List.getElem?_take_of_lt hi, List.getElem?_take_of_lt hi, realloc_getElem? _ (by omega) (by omega)]
  · rw [List.getElem?_take_eq_none (by omega), List.getElem?_take_eq_none (by omega)]

/-- One more slot, behind those in use -/
theorem take_set_self (h : n < xs.length) (a : α) : (xs.set n a).take (n + 1) = xs.take n ++ [a] := by
  rw [List.take_add_one, List.getElem?_set_self h, List.take_set_of_le (Nat.le_refl n)]
  rfl

/-- Where the last slot is the only one with its key, the others are those with another key. -/
theorem filter_ne_last {κ : Type} [DecidableEq κ] {key : α → κ} {a : α}
    (h : ((xs ++ [a]).map key).Nodup) : ((xs ++ [a]).filter fun b => key b ≠ key a) = xs := by
  rw [List.map_append, List.nodup_append] at h
  rw [List.filter_append, List.filter_eq_self.2]
  · simp
  · intro b hb
    have hne := h.2.2 (key b) (List.mem_map_of_mem hb) (key a) (by simp)
    simpa using hne

/-! ### Walking along pointers -/

variable {β : Type} {test : β → Bool} {body : β → α → β}

/-- `for(; test && i < end; i++)` with `n` turns to go, where the body reads the pointer in slot `i` -/
def walk (xs : Slots (Option α)) (test : β → Bool) (body : β → α → β) (i : Nat) : Nat → β → Option β
  | 0, b => some b
  | n + 1, b =>
    if test b then do
      let a ← ← xs.load i
      walk xs test body (i + 1) n (body b a)
    else some b

/-- The same over a list -/
def foldWhile (test : β → Bool) (body : β → α → β) : β → List α → β
  | b, [] => b
  | b, a :: as => if test b then foldWhile test body (body b a) as else b

theorem foldWhile_of_not {b : β} (h : test b = false) (as : List α) : foldWhile test body b as = b := by
  cases as with
  | nil => rfl
  | cons a as => simp [foldWhile, h]

theorem foldWhile_true (b : β) (as : List α) : foldWhile (fun _ => true) body b as = as.foldl body b := by
  induction as generalizing b with
  | nil => rfl
  | cons a as ih => exact ih (body b a)

/-- Where the slots hold pointers to `as`, the walk is one over `as`. -/
theorem walk_eq {xs : Slots (Option α)} {as : List α} {i : Nat} (h : (xs.drop i).take as.length = as.map some)
    (b : β) : walk xs test body i as.length b = some (foldWhile test body b as) := by
  induction as generalizing i b with
  | nil => rfl
  | cons a as ih =>
    have hslot : xs[i]? = some (some a) := by
      have hhead := congrArg (fun l => l[0]?) h
      simpa using hhead
    have hrest : (xs.drop (i + 1)).take as.length = as.map some := by
      have htail := congrArg (List.drop 1) h
      simpa [List.drop_take, List.drop_drop] using htail
    unfold foldWhile
    simp only [List.length_cons, walk]
    by_cases htest : test b = true
    · rw [if_pos htest, if_pos htest, Slots.load, hslot]
      exact ih hrest (body b a)
    · rw [if_neg htest, if_neg htest]

end Slots
