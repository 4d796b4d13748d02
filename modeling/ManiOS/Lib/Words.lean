import Mathlib.Data.List.Induction

/-!
# Words between separators

`words sep l` cuts a list at the elements that `sep` holds of and keeps what is
not empty, as `strtok` does with a string.  `slashed s ws` writes words one after
another, each with the separator `s` before it.  Cutting gives back the words that
were written (`words_slashed`), and a list cut at one of its separators is cut in
two (`words_append_sep`).
-/

namespace ManiOS.Lib

open List

variable {α : Type} {sep : α → Bool} {s c : α}

/-- The words of `l` after the beginning `w` of the first. -/
def wordsFrom (sep : α → Bool) : List α → List α → List (List α)
  | [], [] => []
  | a :: w, [] => [a :: w]
  | [], c :: cs => if sep c then wordsFrom sep [] cs else wordsFrom sep [c] cs
  | a :: w, c :: cs =>
    if sep c then (a :: w) :: wordsFrom sep [] cs else wordsFrom sep (a :: w ++ [c]) cs

def words (sep : α → Bool) (l : List α) : List (List α) := wordsFrom sep [] l

/-- A word: not empty, and without separators. -/
structure IsWord (sep : α → Bool) (w : List α) : Prop where
  ne_nil : w ≠ []
  clear : ∀ c ∈ w, sep c = false

/-- The words one after another, `s` before each. -/
def slashed (s : α) (ws : List (List α)) : List α := ws.flatMap (s :: ·)

@[simp] theorem slashed_nil (s : α) : slashed s [] = [] := rfl

@[simp] theorem slashed_cons (s : α) (w : List α) (ws : List (List α)) :
    slashed s (w :: ws) = s :: (w ++ slashed s ws) := rfl

theorem slashed_append (s : α) (ws vs : List (List α)) :
    slashed s (ws ++ vs) = slashed s ws ++ slashed s vs := flatMap_append

theorem wordsFrom_sep (h : sep c = true) (w cs : List α) :
    wordsFrom sep w (c :: cs) = wordsFrom sep w [] ++ wordsFrom sep [] cs := by
  cases w with
  | nil => simp [wordsFrom, h]
  | cons a w => simp [wordsFrom, h]

theorem wordsFrom_clear (h : sep c = false) (w cs : List α) :
    wordsFrom sep w (c :: cs) = wordsFrom sep (w ++ [c]) cs := by
  cases w with
  | nil => simp [wordsFrom, h]
  | cons a w => simp [wordsFrom, h]

theorem wordsFrom_append_sep (h : sep c = true) (l cs : List α) : ∀ w,
    wordsFrom sep w (l ++ c :: cs) = wordsFrom sep w l ++ wordsFrom sep [] cs := by
  induction l with
  | nil => exact fun w => wordsFrom_sep h w cs
  | cons a l ih =>
    intro w
    rw [cons_append]
    cases ha : sep a with
    | false => rw [wordsFrom_clear ha, wordsFrom_clear ha, ih]
    | true => rw [wordsFrom_sep ha, wordsFrom_sep ha w l, ih, append_assoc]

theorem words_append_sep (h : sep c = true) (l cs : List α) :
    words sep (l ++ c :: cs) = words sep l ++ words sep cs := wordsFrom_append_sep h l cs []

theorem wordsFrom_isWord (l : List α) : ∀ w, (∀ c ∈ w, sep c = false) →
    ∀ v ∈ wordsFrom sep w l, IsWord sep v := by
  have hlast : ∀ w : List α, (∀ c ∈ w, sep c = false) → ∀ v ∈ wordsFrom sep w [], IsWord sep v := by
    intro w hw v hv
    cases w with
    | nil => cases hv
    | cons a w =>
      rw [mem_singleton.mp hv]
      exact ⟨cons_ne_nil a w, hw⟩
  induction l with
  | nil => exact hlast
  | cons c l ih =>
    intro w hw v hv
    cases hc : sep c with
    | false =>
      rw [wordsFrom_clear hc] at hv
      exact ih (w ++ [c]) (forall_mem_append.mpr ⟨hw, forall_mem_singleton.mpr hc⟩) v hv
    | true =>
      rw [wordsFrom_sep hc] at hv
      rcases mem_append.mp hv with hv | hv
      · exact hlast w hw v hv
      · exact ih [] (fun _ ha => nomatch ha) v hv

theorem words_isWord {l v : List α} (hv : v ∈ words sep l) : IsWord sep v :=
  wordsFrom_isWord l [] (fun _ ha => nomatch ha) v hv

theorem wordsFrom_word {v : List α} (hv : ∀ c ∈ v, sep c = false) : ∀ w,
    wordsFrom sep w v = wordsFrom sep (w ++ v) [] := by
  induction v with
  | nil => exact fun w => by rw [append_nil]
  | cons c v ih =>
    intro w
    rw [wordsFrom_clear (hv c mem_cons_self),
      ih (forall_mem_cons.mp hv).2, append_assoc,
      singleton_append]

theorem words_word {v : List α} (hv : IsWord sep v) : words sep v = [v] := by
  rw [words, wordsFrom_word hv.clear]
  cases v with
  | nil => exact absurd rfl hv.ne_nil
  | cons a v => rfl

theorem words_slashed (hs : sep s = true) (ws : List (List α)) (hws : ∀ w ∈ ws, IsWord sep w) :
    words sep (slashed s ws) = ws := by
  induction ws using reverseRecOn with
  | nil => rfl
  | append_singleton ws w ih =>
    rw [slashed_append, slashed_cons, slashed_nil, append_nil, words_append_sep hs,
      ih fun v hv => hws v (mem_append_left _ hv),
      words_word (hws w (mem_append_right _ (mem_singleton_self w)))]

end ManiOS.Lib
