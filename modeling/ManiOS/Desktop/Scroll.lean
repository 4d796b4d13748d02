import ManiOS.Desktop.Canvas

/-!
# Scroll bars

`src/desktop/libui/scroll.c`.  Products of sizes are taken to fit an `int`: beyond that the
source has no meaning.

The place of the thumb is rounded down, and the row of a drag to the nearest.  Where the first
lost more than half a pixel row, the drag comes back to the row before (`drag_stable_iff`).
-/

namespace ManiOS.Ui

open Gfx

def barW : Int := 9

def uiScrollBar (area : Rect) : Rect := ⟨area.x + area.w - barW, area.y, barW, area.h⟩

/-- How high the thumb is. -/
def thumbH (h total visible : Int) : Int := min h (max 12 ((h * visible).tdiv total))

def thumb (bar : Rect) (total visible top : Int) : Rect :=
  if total ≤ visible ∨ total ≤ 0 ∨ bar.h ≤ 0 then ⟨0, 0, 0, 0⟩
  else
    let h := thumbH bar.h total visible
    let y := bar.y + ((bar.h - h) * top).tdiv (total - visible)
    ⟨bar.x + 1, y, bar.w - 2, h⟩

def uiIclamp (v lo hi : Int) : Int := if v < lo then lo else if v > hi then hi else v

inductive Mouse where
  | move
  | press
  | drag
  | release

/-- `ui_scroll_mouse`: the first row to show, and `dragging`. -/
def uiScrollMouse (dragging : Int) (area : Rect) (total visible top : Int) (what : Mouse)
    (x y : Int) : Int × Int :=
  let bar := uiScrollBar area
  let t := thumb bar total visible top
  let last := max 0 (total - visible)
  match what with
  | .press =>
    if ¬gfxContains bar x y then (-1, -1)
    else if gfxRectEmpty t then (top, -1)
    else if gfxContains t x y then (top, y - t.y)
    else (uiIclamp (if y < t.y then top - visible else top + visible) 0 last, -1)
  | .drag =>
    if dragging ≥ 0 then
      let range := bar.h - t.h
      if range ≤ 0 ∨ gfxRectEmpty t then (top, dragging)
      else
        let at' := y - dragging - bar.y
        (uiIclamp ((at' * last + range.tdiv 2).tdiv range) 0 last, dragging)
    else (-1, dragging)
  | .release => (if dragging ≥ 0 then top else -1, -1)
  | .move => (-1, dragging)

/-- Press on the thumb and drag: without a movement the first row stays, and further down it
does not come before. -/
def Stable (area : Rect) (total visible top : Int) : Prop :=
  ∀ dragging x y, gfxContains (thumb (uiScrollBar area) total visible top) x y →
    let (top', dragging) := uiScrollMouse dragging area total visible top .press x y
    let drag (top x y : Int) := (uiScrollMouse dragging area total visible top .drag x y).1
    (∀ x, drag top' x y = top) ∧
      ∀ top x x' y y', y ≤ y' → drag top x y ≤ drag (drag top x y) x' y'

theorem iclamp_mono {v v' lo hi : Int} (hlo : lo ≤ hi) (h : v ≤ v') :
    uiIclamp v lo hi ≤ uiIclamp v' lo hi := by
  grind [uiIclamp]

/-- The pixels that the thumb can move by. -/
def travel (h total visible : Int) : Int := h - thumbH h total visible

/-- A drag comes back to its row unless the thumb is more than half a row too high. -/
theorem drag_back {range last top : Int} (htop : 0 ≤ top) (hle : top ≤ last) (hlast : 0 < last)
    (hrange : last ≤ range) :
    uiIclamp (((range * top).tdiv last * last + range.tdiv 2).tdiv range) 0 last = top ↔
      range * top % last ≤ range / 2 := by
  have hdiv := Int.ediv_mul_add_emod (range * top) last
  have hr := Int.emod_nonneg (range * top) hlast.ne'
  have hr' := Int.emod_lt_of_pos (range * top) hlast
  have hpos : 0 ≤ range * top := Int.mul_nonneg (by omega) htop
  have hge : top ≠ 0 → range ≤ range * top := fun h => le_mul_of_one_le_right (by omega) (by omega)
  have hzero : top = 0 → range * top % last = 0 := fun h => by simp [h]
  rw [Int.tdiv_eq_ediv_of_nonneg hpos, Int.tdiv_eq_ediv_of_nonneg (show 0 ≤ range by omega),
    Int.tdiv_eq_ediv_of_nonneg (by omega), show range * top / last * last + range / 2 =
      range / 2 - range * top % last + range * top by omega,
    Int.add_mul_ediv_left _ _ (show range ≠ 0 by omega), uiIclamp]
  constructor
  · intro h
    by_contra hc
    have := Int.ediv_neg_of_neg_of_pos (show range / 2 - range * top % last < 0 by omega)
      (show 0 < range by omega)
    split_ifs at h
    all_goals omega
  · intro h
    rw [Int.ediv_eq_zero_of_lt (by omega) (by omega)]
    split_ifs
    all_goals omega

section

variable {area : Rect} {total visible top : Int} (h0 : 0 ≤ visible) (hlast : visible < total)
  (hrange : total - visible ≤ travel area.h total visible)

include h0 hlast hrange

theorem thumb_eq (top : Int) : 0 < thumbH area.h total visible ∧
    thumb (uiScrollBar area) total visible top = ⟨area.x + area.w - barW + 1,
      area.y + (travel area.h total visible * top).tdiv (total - visible), 7,
      thumbH area.h total visible⟩ := by
  have hh : 0 < area.h := by grind [travel, thumbH]
  refine ⟨by grind [thumbH], ?_⟩
  rw [thumb, if_neg (by simp only [uiScrollBar]; omega)]
  rfl

theorem drag_eq {dragging : Int} (hd : 0 ≤ dragging) (top x y : Int) :
    (uiScrollMouse dragging area total visible top .drag x y).1 =
      uiIclamp (((y - dragging - area.y) * (total - visible) +
        (travel area.h total visible).tdiv 2).tdiv (travel area.h total visible)) 0
        (total - visible) := by
  obtain ⟨hpos, ht⟩ := thumb_eq h0 hlast hrange top
  have hr : ¬(travel area.h total visible ≤ 0) := by omega
  simp only [uiScrollMouse, ht, if_pos hd]
  rw [if_neg, max_eq_right (by omega)]
  · rfl
  · rintro (h | h | h)
    · exact hr h
    · exact absurd (show (7 : Int) ≤ 0 from h) (by decide)
    · exact absurd hpos (not_lt.mpr h)

/-- A press on the thumb. -/
theorem press_eq (htop : 0 ≤ top ∧ top ≤ total - visible) (dragging : Int) {x y : Int}
    (h : gfxContains (thumb (uiScrollBar area) total visible top) x y) :
    0 ≤ y - (thumb (uiScrollBar area) total visible top).y ∧
      uiScrollMouse dragging area total visible top .press x y =
        (top, y - (thumb (uiScrollBar area) total visible top).y) := by
  obtain ⟨hpos, ht⟩ := thumb_eq h0 hlast hrange top
  have hq : (travel area.h total visible * top).tdiv (total - visible) ≤
      travel area.h total visible := by
    rw [Int.tdiv_eq_ediv_of_nonneg (Int.mul_nonneg (by omega) htop.1)]
    exact Int.ediv_le_of_le_mul (by omega) (Int.mul_le_mul_of_nonneg_left htop.2 (by omega))
  have hq0 : 0 ≤ (travel area.h total visible * top).tdiv (total - visible) :=
    Int.tdiv_nonneg (Int.mul_nonneg (by omega) htop.1) (by omega)
  have hbar : gfxContains (uiScrollBar area) x y := by
    rw [ht] at h
    grind [gfxContains, uiScrollBar, barW, travel]
  refine ⟨by grind [gfxContains], ?_⟩
  simp only [uiScrollMouse]
  rw [if_neg (not_not.mpr hbar), if_neg, if_pos h]
  grind [gfxContains, gfxRectEmpty]

end

/-- The thumb can be dragged as it should if and only if rounding its place down loses at most
half of what a row comes to. -/
theorem drag_stable_iff {area : Rect} {total visible top : Int} (h0 : 0 ≤ visible)
    (hlast : visible < total) (hrange : total - visible ≤ travel area.h total visible)
    (htop : 0 ≤ top ∧ top ≤ total - visible) : Stable area total visible top ↔
      travel area.h total visible * top % (total - visible) ≤ travel area.h total visible / 2 := by
  obtain ⟨hpos, ht⟩ := thumb_eq h0 hlast hrange top
  rw [← drag_back htop.1 htop.2 (by omega) hrange]
  have hat (y : Int) : y - (y - (thumb (uiScrollBar area) total visible top).y) - area.y =
      (travel area.h total visible * top).tdiv (total - visible) := by
    rw [ht]
    ring
  constructor
  · intro h
    have hcorner : gfxContains (thumb (uiScrollBar area) total visible top)
        (area.x + area.w - barW + 1) (thumb (uiScrollBar area) total visible top).y := by
      grind [gfxContains]
    obtain ⟨hd, hpress⟩ := press_eq h0 hlast hrange htop 0 hcorner
    have hstay := h 0 _ _ hcorner
    simp only [hpress, drag_eq h0 hlast hrange hd, hat] at hstay
    exact hstay.1 0
  · intro h dragging x y hxy
    obtain ⟨hd, hpress⟩ := press_eq h0 hlast hrange htop dragging hxy
    simp only [hpress, drag_eq h0 hlast hrange hd, hat]
    refine ⟨fun _ => h, fun _ _ _ y y' hy => ?_⟩
    refine iclamp_mono (by omega) (Int.tdiv_le_tdiv (by omega) (Int.add_le_add_right ?_ _))
    exact Int.mul_le_mul_of_nonneg_right (by omega) (by omega)

/-- A bar of 18 pixels for 7 rows, of which 2 are visible. -/
theorem drag_unstable : ¬Stable ⟨0, 0, 9, 18⟩ 7 2 4 := by
  intro h
  exact absurd ((h 0 1 4 (by decide)).1 1) (by decide)

/-- The second row of the same. -/
theorem drag_stable_second : Stable ⟨0, 0, 9, 18⟩ 7 2 1 :=
  (drag_stable_iff (by decide) (by decide) (by decide) (by decide)).mpr (by decide)

end ManiOS.Ui
