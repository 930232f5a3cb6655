import Mathlib.Logic.Function.Basic
import Mathlib.Tactic.Common

/-!
# Doubly linked lists

Nodes on a heap, each with a link to the one before it and to the one behind it.  `Segment` is a stretch of
such a list, `DList` a whole list; `DList.unlink` takes a node out of it.
-/

/-- The links of a node. -/
@[ext] structure Links (α : Type) where
  prev : Option α
  next : Option α

variable {α : Type}

/-- From `head` on lie the nodes `l`, and behind them `stop`.  The node before them is `prev`, and `last` is
the last of them, or `prev` if there are none. -/
def Segment (links : α → Option (Links α)) : Option α → Option α → List α → Option α → Option α → Prop
  | prev, head, [], last, stop => prev = last ∧ head = stop
  | prev, head, a :: l, last, stop =>
    head = some a ∧ ∃ next, links a = some ⟨prev, next⟩ ∧ Segment links (some a) next l last stop

namespace Segment

variable {links links' : α → Option (Links α)} {prev head last stop : Option α} {l l₁ l₂ : List α} {a : α}

theorem append : Segment links prev head (l₁ ++ l₂) last stop ↔
    ∃ m k, Segment links prev head l₁ m k ∧ Segment links m k l₂ last stop := by
  induction l₁ generalizing prev head with
  | nil =>
    constructor
    · intro h
      exact ⟨prev, head, ⟨rfl, rfl⟩, h⟩
    · rintro ⟨m, k, ⟨rfl, rfl⟩, h⟩
      exact h
  | cons a l₁ ih =>
    constructor
    · rintro ⟨rfl, next, hlinks, h⟩
      obtain ⟨m, k, h₁, h₂⟩ := ih.1 h
      exact ⟨m, k, ⟨rfl, next, hlinks, h₁⟩, h₂⟩
    · rintro ⟨m, k, ⟨rfl, next, hlinks, h₁⟩, h₂⟩
      exact ⟨rfl, next, hlinks, ih.2 ⟨m, k, h₁, h₂⟩⟩

/-- A segment depends on the links of its nodes only. -/
theorem congr (h : Segment links prev head l last stop) (hl : ∀ a ∈ l, links' a = links a) :
    Segment links' prev head l last stop := by
  induction l generalizing prev head with
  | nil => exact h
  | cons a l ih =>
    obtain ⟨rfl, next, hlinks, h⟩ := h
    refine ⟨rfl, next, (hl a (by simp)).trans hlinks, ih h ?_⟩
    intro b hb
    exact hl b (by simp [hb])

theorem last_eq (h : Segment links prev head l last stop) : last = (l.getLast?).or prev := by
  induction l generalizing prev head with
  | nil => exact h.1.symm
  | cons a l ih =>
    obtain ⟨rfl, next, -, h⟩ := h
    rw [ih h, List.getLast?_cons]
    cases l.getLast? <;> rfl

theorem head_eq (h : Segment links prev head l last stop) : head = (l.head?).or stop := by
  cases l with
  | nil => exact h.2
  | cons a l => exact h.1

end Segment

section Change

variable [DecidableEq α]

/-- The links of `a`, if there is such a node, are changed by `f`. -/
def relink (f : Links α → Links α) (a : Option α) (links : α → Option (Links α)) : α → Option (Links α) :=
  match a with
  | none => links
  | some a => Function.update links a ((links a).map f)

variable {links : α → Option (Links α)} {f : Links α → Links α}

theorem relink_of_ne {a : Option α} {b : α} (h : a ≠ some b) : relink f a links b = links b := by
  cases a with
  | none => rfl
  | some a => exact Function.update_of_ne (by rintro rfl; exact h rfl) _ _

theorem relink_self (a : α) : relink f (some a) links a = (links a).map f := Function.update_self _ _ _

theorem relink_isSome (a : Option α) (b : α) : (relink f a links b).isSome = (links b).isSome := by
  by_cases h : a = some b
  · rw [h, relink_self, Option.isSome_map]
  · rw [relink_of_ne h]

/-- The list up to a node goes on somewhere else. -/
theorem Segment.setNext {head last stop : Option α} {l : List α} (h : Segment links none head l last stop)
    (hl : l.Nodup) (next : Option α) :
    Segment (relink (fun x => { x with next }) last links) none (if l = [] then next else head) l last next := by
  rcases List.eq_nil_or_concat l with rfl | ⟨l, b, rfl⟩
  · exact ⟨h.1, rfl⟩
  rw [List.concat_eq_append] at h hl ⊢
  rw [if_neg (by simp)]
  obtain ⟨m, k, h₁, rfl, next', hlinks, rfl, rfl⟩ := Segment.append.1 h
  have hb : b ∉ l := by
    intro hb
    exact (List.nodup_append.1 hl).2.2 b hb b (by simp) rfl
  refine Segment.append.2 ⟨m, some b, h₁.congr ?_, rfl, next, ?_, rfl, rfl⟩
  · intro a ha
    refine relink_of_ne ?_
    rintro ⟨⟩
    exact hb ha
  · rw [relink_self, hlinks]
    rfl

/-- The list from a node on has another node before it. -/
theorem Segment.setPrev {prev head last : Option α} {l : List α} (h : Segment links prev head l last none)
    (hl : l.Nodup) (prev' : Option α) :
    ∃ last', Segment (relink (fun x => { x with prev := prev' }) head links) prev' head l last' none := by
  cases l with
  | nil => exact ⟨prev', rfl, h.2⟩
  | cons a l =>
    obtain ⟨rfl, next, hlinks, h⟩ := h
    refine ⟨last, rfl, next, ?_, h.congr ?_⟩
    · rw [relink_self, hlinks]
      rfl
    · intro b hb
      refine relink_of_ne ?_
      rintro ⟨⟩
      exact (List.nodup_cons.1 hl).1 hb

end Change

/-- The nodes of the heap are the nodes of `l`, each once, linked from `head` on in both directions. -/
structure DList (links : α → Option (Links α)) (head : Option α) (l : List α) : Prop where
  walk : ∃ last, Segment links none head l last none
  nodup : l.Nodup
  mem_iff : ∀ a, a ∈ l ↔ (links a).isSome

namespace DList

variable {links : α → Option (Links α)} {head : Option α} {l l₁ l₂ : List α} {a : α}

theorem eq_nil_iff (h : DList links head l) : l = [] ↔ head = none := by
  obtain ⟨last, hwalk⟩ := h.walk
  rw [hwalk.head_eq]
  cases l <;> simp

/-- A node in the middle of the list has the last node before it and the first one behind it for its links. -/
theorem links_eq (h : DList links head (l₁ ++ a :: l₂)) : links a = some ⟨l₁.getLast?, l₂.head?⟩ := by
  obtain ⟨last, hwalk⟩ := h.walk
  obtain ⟨m, k, h₁, rfl, next, hlinks, h₂⟩ := Segment.append.1 hwalk
  rw [hlinks, h₁.last_eq, h₂.head_eq, Option.or_none, Option.or_none]

theorem links_head (h : DList links head (a :: l)) : links a = some ⟨none, l.head?⟩ := by
  have h' : DList links head ([] ++ a :: l) := h
  exact h'.links_eq

theorem head_eq (h : DList links head l) : head = l.head? := by
  obtain ⟨last, hwalk⟩ := h.walk
  rw [hwalk.head_eq, Option.or_none]

variable [DecidableEq α]

/-- A node is taken out: its neighbours are linked to each other, and the head moves on if the node was the
first. -/
theorem unlink (h : DList links head (l₁ ++ a :: l₂)) :
    DList (Function.update (relink (fun x => { x with prev := l₁.getLast? }) l₂.head?
      (relink (fun x => { x with next := l₂.head? }) l₁.getLast? links)) a none)
      (if head = some a then l₂.head? else head) (l₁ ++ l₂) := by
  obtain ⟨last, hwalk⟩ := h.walk
  obtain ⟨hnodup₁, hnodup₂, hdisjoint⟩ := List.nodup_append.1 h.nodup
  obtain ⟨ha, hnodup₂⟩ := List.nodup_cons.1 hnodup₂
  have ha₁ : a ∉ l₁ := fun hmem => hdisjoint a hmem a (by simp) rfl
  obtain ⟨m, k, h₁, rfl, next, -, h₂⟩ := Segment.append.1 hwalk
  have hm : m = l₁.getLast? := by rw [h₁.last_eq, Option.or_none]
  have hnext : next = l₂.head? := by rw [h₂.head_eq, Option.or_none]
  rw [← hm, ← hnext]
  -- the link that leads past the node is in `l₁`, the one that leads back is in `l₂`
  have hm₁ : ∀ b, m = some b → b ∈ l₁ := by
    intro b hb
    exact List.mem_of_getLast? (hm.symm.trans hb)
  have hnext₂ : ∀ b, next = some b → b ∈ l₂ := by
    intro b hb
    exact List.mem_of_head? (hnext.symm.trans hb)
  have hhead : (if head = some a then next else head) = if l₁ = [] then next else head := by
    cases l₁ with
    | nil => rw [if_pos h₁.2, if_pos rfl]
    | cons b l₁ =>
      rw [if_neg, if_neg (by simp)]
      rw [h₁.1]
      rintro ⟨⟩
      exact ha₁ (by simp)
  rw [hhead]
  have hleft := h₁.setNext hnodup₁ next
  have hright : Segment (relink (fun x => { x with next }) m links) (some a) next l₂ last none := by
    refine h₂.congr ?_
    intro b hb
    refine relink_of_ne ?_
    intro hmb
    exact hdisjoint b (hm₁ b hmb) b (by simp [hb]) rfl
  obtain ⟨last', hright⟩ := hright.setPrev hnodup₂ m
  refine ⟨⟨last', Segment.append.2 ⟨m, next, hleft.congr ?_, hright.congr ?_⟩⟩, ?_, ?_⟩
  · intro b hb
    have hba : b ≠ a := fun hba => ha₁ (hba ▸ hb)
    rw [Function.update_of_ne hba]
    refine relink_of_ne ?_
    intro hnb
    exact hdisjoint b hb b (by simp [hnext₂ b hnb]) rfl
  · intro b hb
    refine Function.update_of_ne ?_ _ _
    rintro rfl
    exact ha hb
  · refine List.nodup_append.2 ⟨hnodup₁, hnodup₂, ?_⟩
    intro x hx y hy
    exact hdisjoint x hx y (by simp [hy])
  · intro b
    by_cases hba : b = a
    · rw [hba, Function.update_self]
      simp [ha, ha₁]
    · rw [Function.update_of_ne hba, relink_isSome, relink_isSome, ← h.mem_iff b]
      simp [hba]

end DList
