import Mathlib.Data.List.Basic

/-!
# Prefix codes

A code gives each word of some kind a sequence of letters.  In a `PrefixCode` the meaning of the first word can be
told from the letters alone, whatever follows.  Then sequences of words are coded in a way that keeps prefixes
(`PrefixCode.prefix_iff`), and so loses nothing of what the words mean.
-/

variable {α β γ : Type*}

/-- What the words of `kind` mean can be read off the front of their code. -/
structure PrefixCode (kind : α → Prop) (meaning : α → γ) (code : α → List β) : Prop where
  ne_nil : ∀ a, kind a → code a ≠ []
  code_eq : ∀ a b, meaning a = meaning b → code a = code b
  meaning_eq : ∀ a b, kind a → kind b → ∀ xs ys, code a ++ xs = code b ++ ys → meaning a = meaning b

namespace PrefixCode

variable {kind : α → Prop} {meaning : α → γ} {code : α → List β} (hcode : PrefixCode kind meaning code)

include hcode

theorem flatMap_eq {as bs : List α} (h : as.map meaning = bs.map meaning) : as.flatMap code = bs.flatMap code := by
  induction as generalizing bs with
  | nil =>
    rw [List.map_nil, eq_comm, List.map_eq_nil_iff] at h
    rw [h]
  | cons a as ih =>
    cases bs with
    | nil => cases h
    | cons b bs =>
      rw [List.map_cons, List.map_cons, List.cons.injEq] at h
      rw [List.flatMap_cons, List.flatMap_cons, hcode.code_eq a b h.1, ih h.2]

/-- The code of one sequence is a prefix of the code of another if and only if its meaning is. -/
theorem prefix_iff {as bs : List α} (has : ∀ a ∈ as, kind a) (hbs : ∀ b ∈ bs, kind b) :
    as.flatMap code <+: bs.flatMap code ↔ as.map meaning <+: bs.map meaning := by
  constructor
  · intro h
    induction as generalizing bs with
    | nil => exact List.nil_prefix
    | cons a as ih =>
      have ha := has a (List.mem_cons_self ..)
      obtain ⟨xs, hxs⟩ := h
      rw [List.flatMap_cons, List.append_assoc] at hxs
      cases bs with
      | nil => exact absurd (List.append_eq_nil_iff.1 hxs).1 (hcode.ne_nil a ha)
      | cons b bs =>
        rw [List.flatMap_cons] at hxs
        have hmeaning := hcode.meaning_eq a b ha (hbs b (List.mem_cons_self ..)) _ _ hxs
        rw [hcode.code_eq a b hmeaning] at hxs
        rw [List.map_cons, List.map_cons, hmeaning, List.prefix_cons_inj]
        exact ih (fun a h => has a (List.mem_cons_of_mem _ h)) (fun b h => hbs b (List.mem_cons_of_mem _ h))
          ⟨xs, List.append_cancel_left hxs⟩
  · rintro ⟨ms, hms⟩
    rw [← List.take_append_drop as.length bs] at hms ⊢
    rw [List.map_append] at hms
    have hlen : (bs.take as.length).length = as.length := by
      have h := congrArg List.length hms
      simp only [List.length_append, List.length_map] at h
      rw [List.length_take, List.length_drop] at *
      omega
    have htake := (List.append_inj hms (by rw [List.length_map, List.length_map, hlen])).1
    rw [List.flatMap_append, hcode.flatMap_eq htake]
    exact List.prefix_append _ _

end PrefixCode
