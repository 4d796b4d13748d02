import Mathlib.Algebra.Order.Ring.Abs
import Mathlib.Data.List.Chain
import Mathlib.Tactic.Linarith
import Mathlib.Tactic.Ring

/-!
# Drawing

`src/desktop/libgfx/gfx.c`: lines and copies of rectangles.

A line takes as many steps as its longer side (`gfx_line_visits`).  The error term measures
how far the pen is from the line: twice that stays below the longer side, so each turn of the
loop goes on along it, and both coordinates come to the end together.
-/

namespace ManiOS.Gfx

/-! ## Rectangles -/

structure Rect where
  x : Int
  y : Int
  w : Int
  h : Int

def gfxIntersect (a b : Rect) : Rect :=
  let x0 := max a.x b.x
  let y0 := max a.y b.y
  let x1 := min (a.x + a.w) (b.x + b.w)
  let y1 := min (a.y + a.h) (b.y + b.h)
  if x1 - x0 ≤ 0 ∨ y1 - y0 ≤ 0 then ⟨x0, y0, 0, 0⟩ else ⟨x0, y0, x1 - x0, y1 - y0⟩

def gfxRectEmpty (r : Rect) : Prop := r.w ≤ 0 ∨ r.h ≤ 0

def gfxContains (r : Rect) (x y : Int) : Prop :=
  x ≥ r.x ∧ y ≥ r.y ∧ x < r.x + r.w ∧ y < r.y + r.h

instance (r : Rect) : Decidable (gfxRectEmpty r) := inferInstanceAs (Decidable (_ ∨ _))

instance (r : Rect) (x y : Int) : Decidable (gfxContains r x y) :=
  inferInstanceAs (Decidable (_ ∧ _))

theorem contains_intersect (a b : Rect) (x y : Int) :
    gfxContains (gfxIntersect a b) x y ↔ gfxContains a x y ∧ gfxContains b x y := by
  simp only [gfxIntersect, gfxContains]
  split
  all_goals
    dsimp only
    omega

/-! ## Copies -/

/-- A canvas, with its pixels by column and row.  `gfx_set_clip` keeps the clip inside. -/
structure Canvas where
  width : Int
  height : Int
  pixels : Int → Int → UInt32
  clip : Rect
  inside : ∀ x y, gfxContains clip x y → gfxContains ⟨0, 0, width, height⟩ x y

/-- `memmove` of a row: the part of `d` at `row` gets that of `sr`. -/
def copyRow (d sr : Rect) (row : Int) (out src : Int → Int → UInt32) : Int → Int → UInt32 :=
  fun x y => if y = d.y + row ∧ d.x ≤ x ∧ x < d.x + d.w then src (sr.x + (x - d.x)) (sr.y + row)
    else out x y

/-- The loop over the rows.  Without a source the canvas is its own. -/
def copyRows (d sr : Rect) (src : Option Canvas) (upward : Bool) (out : Int → Int → UInt32) :
    Nat → Int → Int → UInt32
  | 0 => out
  | i + 1 =>
    let out := copyRows d sr src upward out i
    copyRow d sr (if upward then d.h - 1 - i else i) out (src.elim out (·.pixels))

def gfxBlit (dst : Canvas) (x y : Int) (src : Option Canvas) (sr : Rect) : Canvas :=
  let s := src.getD dst
  let sr := gfxIntersect sr ⟨0, 0, s.width, s.height⟩
  let d := gfxIntersect ⟨x, y, sr.w, sr.h⟩ dst.clip
  let sr := { sr with x := sr.x + (d.x - x), y := sr.y + (d.y - y) }
  let upward := src.isNone && d.y > sr.y
  { dst with pixels := copyRows d sr src upward dst.pixels d.h.toNat }

theorem copyRows_eq {d sr : Rect} {src : Option Canvas} {upward : Bool} {out : Int → Int → UInt32}
    (hup : src = none → (upward = true ↔ d.y > sr.y)) {n : Nat} (hn : n ≤ d.h.toNat) (x y : Int) :
    copyRows d sr src upward out n x y =
      if d.x ≤ x ∧ x < d.x + d.w ∧ (if upward then d.y + d.h - n ≤ y ∧ y < d.y + d.h
        else d.y ≤ y ∧ y < d.y + n) then
        (src.elim out (·.pixels)) (sr.x + (x - d.x)) (sr.y + (y - d.y))
      else out x y := by
  induction n generalizing x y with
  | zero =>
    rw [if_neg (by grind)]
    rfl
  | succ n ih =>
    simp only [copyRows, copyRow]
    cases src with
    | none =>
      -- the row that is read is not among those that were written
      have hup := hup rfl
      simp only [Option.elim_none, ih (by omega)]
      cases upward
      all_goals grind
    | some s =>
      simp only [Option.elim_some, ih (by omega)]
      cases upward
      all_goals grind

/-- What a copy is for: each pixel of the clip whose source is a pixel of the rectangle gets
that, and no other changes. -/
def Copied (dst : Canvas) (x y : Int) (src : Option Canvas) (sr : Rect) : Prop :=
  let s := src.getD dst
  ∀ px py, (gfxBlit dst x y src sr).pixels px py =
    if gfxContains dst.clip px py ∧ gfxContains sr (sr.x + (px - x)) (sr.y + (py - y)) ∧
        gfxContains ⟨0, 0, s.width, s.height⟩ (sr.x + (px - x)) (sr.y + (py - y)) then
      s.pixels (sr.x + (px - x)) (sr.y + (py - y))
    else dst.pixels px py

theorem gfxBlit_pixels (dst : Canvas) (x y : Int) (src : Option Canvas) (sr : Rect) (px py : Int) :
    let s := src.getD dst
    let part := gfxIntersect sr ⟨0, 0, s.width, s.height⟩
    (gfxBlit dst x y src sr).pixels px py =
      if gfxContains dst.clip px py ∧ gfxContains part (part.x + (px - x)) (part.y + (py - y)) then
        s.pixels (part.x + (px - x)) (part.y + (py - y))
      else dst.pixels px py := by
  intro s part
  have hd := contains_intersect ⟨x, y, part.w, part.h⟩ dst.clip px py
  have hs : src.elim dst.pixels (·.pixels) = s.pixels := by
    cases src with
    | none => rfl
    | some s => rfl
  simp only [gfxBlit]
  rw [copyRows_eq (by simp +contextual) le_rfl, hs]
  generalize gfxIntersect ⟨x, y, part.w, part.h⟩ dst.clip = d at *
  refine if_congr ?_ (by congr 1 <;> ring) rfl
  have hpart : gfxContains part (part.x + (px - x)) (part.y + (py - y)) ↔
      gfxContains ⟨x, y, part.w, part.h⟩ px py := by grind [gfxContains]
  rw [hpart, and_comm (a := gfxContains dst.clip px py), ← hd]
  grind [gfxContains]

/-- Copies are right where the rectangle begins in the source, or nothing is copied. -/
theorem blit_copies (dst : Canvas) (x y w h : Int) (sr : Rect) :
    let part := gfxIntersect sr ⟨0, 0, w, h⟩
    (∀ src : Option Canvas, (src.getD dst).width = w → (src.getD dst).height = h →
      Copied dst x y src sr) ↔
      0 ≤ sr.x ∧ 0 ≤ sr.y ∨ ∀ px py, gfxContains dst.clip px py →
        ¬gfxContains part (part.x + (px - x)) (part.y + (py - y)) ∧
        ¬gfxContains part (sr.x + (px - x)) (sr.y + (py - y)) := by
  intro part
  have hx : part.x = max sr.x 0 ∧ part.y = max sr.y 0 := by grind [gfxIntersect]
  have hcopied (src : Option Canvas) (hw : (src.getD dst).width = w) (hh : (src.getD dst).height = h) :
      Copied dst x y src sr ↔ ∀ px py,
        (if gfxContains dst.clip px py ∧
            gfxContains part (part.x + (px - x)) (part.y + (py - y)) then
          (src.getD dst).pixels (part.x + (px - x)) (part.y + (py - y)) else dst.pixels px py) =
        if gfxContains dst.clip px py ∧ gfxContains part (sr.x + (px - x)) (sr.y + (py - y)) then
          (src.getD dst).pixels (sr.x + (px - x)) (sr.y + (py - y)) else dst.pixels px py := by
    simp only [Copied, gfxBlit_pixels, ← contains_intersect, hw, hh]
    rfl
  constructor
  · intro hall
    by_contra hc
    push Not at hc
    obtain ⟨hneg, px, py, hclip, hq⟩ := hc
    have hne (v : UInt32) : v + 1 ≠ v := by grind
    let source (pixels : Int → Int → UInt32) : Canvas :=
      ⟨w, h, pixels, ⟨0, 0, 0, 0⟩, by grind [gfxContains]⟩
    by_cases hs : gfxContains part (sr.x + (px - x)) (sr.y + (py - y))
    · -- the pixel that is copied is not the one it should be
      let pixels (u v : Int) : UInt32 :=
        if u = sr.x + (px - x) ∧ v = sr.y + (py - y) then dst.pixels px py + 1 else dst.pixels px py
      have hread : ¬(part.x + (px - x) = sr.x + (px - x) ∧ part.y + (py - y) = sr.y + (py - y)) := by
        omega
      have := (hcopied (some (source pixels)) rfl rfl).mp (hall _ rfl rfl) px py
      simp only [Option.getD_some, source, pixels, if_neg hread, ite_self, hclip, hs, and_self,
        if_true] at this
      exact hne _ this.symm
    · have := (hcopied (some (source fun _ _ => dst.pixels px py + 1)) rfl rfl).mp
        (hall _ rfl rfl) px py
      simp only [Option.getD_some, source, hclip, hs, by_contra fun h => hs (hq h), and_self, if_true,
        and_false, if_false] at this
      exact hne _ this
  · rintro (⟨hx0, hy0⟩ | hnone) src hw hh
    · rw [hcopied src hw hh, hx.1, hx.2, max_eq_left hx0, max_eq_left hy0]
      exact fun _ _ => rfl
    · rw [hcopied src hw hh]
      intro px py
      rw [if_neg fun h => (hnone px py h.1).1 h.2, if_neg fun h => (hnone px py h.1).2 h.2]

/-- A rectangle that begins one pixel before the source, which has two. -/
theorem blit_shifted :
    let c (pixels : Int → Int → UInt32) : Canvas := ⟨2, 1, pixels, ⟨0, 0, 2, 1⟩, fun _ _ h => h⟩
    ¬Copied (c fun _ _ => 0) 0 0 (some (c fun x _ => if x = 0 then 0xFF else 0)) ⟨-1, 0, 2, 1⟩ := by
  intro c h
  exact absurd (h 0 0) (by decide)

/-! ## Lines -/

/-- The variables of the loop of `gfx_line`. -/
structure Pen where
  x : Int
  y : Int
  err : Int

/-- What the loop does not change. -/
structure Line where
  x1 : Int
  y1 : Int
  dx : Int
  dy : Int
  sx : Int
  sy : Int

variable (l : Line)

/-- A turn of the loop. -/
def Line.step (p : Pen) : Pen :=
  let e2 := 2 * p.err
  let (err, x) := if l.dy ≤ e2 then (p.err + l.dy, p.x + l.sx) else (p.err, p.x)
  let (err, y) := if e2 ≤ l.dx then (err + l.dx, p.y + l.sy) else (err, p.y)
  ⟨x, y, err⟩

/-- The loop, with a bound for its turns: the variables at each `gfx_pixel`. -/
def Line.run : Nat → Pen → Option (List Pen)
  | 0, _ => none
  | fuel + 1, p =>
    if p.x = l.x1 ∧ p.y = l.y1 then some [p] else (run fuel (l.step p)).map (p :: ·)

/-- The values that `gfx_line` starts with. -/
def Line.between (x0 y0 x1 y1 : Int) : Line where
  x1 := x1
  y1 := y1
  dx := if x1 > x0 then x1 - x0 else x0 - x1
  sx := if x0 < x1 then 1 else -1
  dy := if y1 > y0 then y0 - y1 else y1 - y0
  sy := if y0 < y1 then 1 else -1

def gfxLine (x0 y0 x1 y1 : Int) (fuel : Nat) : Option (List Pen) :=
  let l := Line.between x0 y0 x1 y1
  l.run fuel ⟨x0, y0, l.dx + l.dy⟩

section Line

variable {a b i j : Int}

/-- `i` of `a` steps along and `j` of `b` steps across: half a step from the line at most. -/
structure Near (a b i j : Int) : Prop where
  along : 0 ≤ i ∧ i ≤ a
  across : 0 ≤ j ∧ j ≤ b
  below : 2 * (i * b) ≤ 2 * (j * a) + max a b
  above : 2 * (j * a) ≤ 2 * (i * b) + max a b

theorem Near.swap (h : Near a b i j) : Near b a j i :=
  ⟨h.across, h.along, max_comm a b ▸ h.above, max_comm a b ▸ h.below⟩

theorem le_of_near (ha : 0 < a) (hb : 0 ≤ b) (hi : i ≤ a) (h : 2 * (j * a) ≤ 2 * (i * b) + a) :
    j ≤ b := by
  by_contra hj
  have hja : (b + 1) * a ≤ j * a := Int.mul_le_mul_of_nonneg_right (by omega) ha.le
  have hib : i * b ≤ a * b := Int.mul_le_mul_of_nonneg_right hi hb
  rw [Int.add_mul, Int.mul_comm b a] at hja
  omega

/-- At the end of the longer side the pen is at the end of the other. -/
theorem Near.last (h : Near a b a j) (hab : b ≤ a) : j = b := by
  obtain ⟨hj, hjb⟩ := h.across
  by_contra hne
  have hlt : j * a ≤ (b - 1) * a := Int.mul_le_mul_of_nonneg_right (by omega) (by omega)
  have := h.below
  rw [Int.sub_mul, Int.mul_comm b a] at hlt
  omega

/-- How a turn goes on along the longer side. -/
theorem Near.turn (h : Near a b i j) (hab : b ≤ a) (hi : i < a) :
    -b ≤ 2 * ((j + 1) * a - (i + 1) * b) ∧
      Near a b (i + 1) (if 2 * ((j + 1) * a - (i + 1) * b) ≤ a then j + 1 else j) := by
  obtain ⟨⟨hi0, _⟩, ⟨hj0, hjb⟩, hbelow, habove⟩ := h
  rw [max_eq_left hab] at hbelow habove
  have hi' : (i + 1) * b = i * b + b := by ring
  have hj' : (j + 1) * a = j * a + a := by ring
  refine ⟨by omega, ?_⟩
  split
  next hup =>
    have habove : 2 * ((j + 1) * a) ≤ 2 * ((i + 1) * b) + a := by omega
    refine ⟨by omega, ⟨by omega, le_of_near (by omega) (by omega) (by omega) habove⟩, ?_, ?_⟩
    all_goals
      rw [max_eq_left hab]
      omega
  next hup =>
    refine ⟨by omega, ⟨hj0, hjb⟩, ?_, ?_⟩
    all_goals
      rw [max_eq_left hab]
      omega

/-- The steps that are left. -/
def left (a b i j : Int) : Int := if b ≤ a then a - i else b - j

theorem Near.end (h : Near a b i j) (hl : left a b i j = 0) : i = a ∧ j = b := by
  unfold left at hl
  split at hl
  next hab =>
    obtain rfl : i = a := by omega
    exact ⟨rfl, h.last hab⟩
  next hab =>
    obtain rfl : j = b := by omega
    exact ⟨h.swap.last (by omega), rfl⟩

theorem Near.next (h : Near a b i j) {m : Nat} (hl : left a b i j = m + 1) :
    ∃ i' j', (i' = if -b ≤ 2 * ((j + 1) * a - (i + 1) * b) then i + 1 else i) ∧
      (j' = if 2 * ((j + 1) * a - (i + 1) * b) ≤ a then j + 1 else j) ∧
      (i' ≠ i ∨ j' ≠ j) ∧ Near a b i' j' ∧ left a b i' j' = m := by
  unfold left at hl ⊢
  split at hl
  next hab =>
    obtain ⟨hgo, hnear⟩ := h.turn hab (by omega)
    refine ⟨_, _, rfl, rfl, ?_⟩
    rw [if_pos hgo]
    exact ⟨.inl (by omega), hnear, by omega⟩
  next hab =>
    obtain ⟨hgo, hnear⟩ := h.swap.turn (by omega) (by omega)
    refine ⟨_, _, rfl, rfl, ?_⟩
    rw [if_pos (show 2 * ((j + 1) * a - (i + 1) * b) ≤ a by omega)]
    simp only [show -b ≤ 2 * ((j + 1) * a - (i + 1) * b) ↔
      2 * ((i + 1) * b - (j + 1) * a) ≤ b by omega]
    exact ⟨.inr (by omega), hnear.swap, by omega⟩

/-- The pen after `i` and `j` steps. -/
def Line.pen (i j : Int) : Pen :=
  ⟨l.x1 - l.sx * (l.dx - i), l.y1 - l.sy * (-l.dy - j), (j + 1) * l.dx - (i + 1) * -l.dy⟩

theorem Line.step_pen (i j : Int) : l.step (l.pen i j) =
    l.pen (if - -l.dy ≤ 2 * ((j + 1) * l.dx - (i + 1) * -l.dy) then i + 1 else i)
      (if 2 * ((j + 1) * l.dx - (i + 1) * -l.dy) ≤ l.dx then j + 1 else j) := by
  simp only [Line.step, Line.pen, neg_neg]
  split_ifs
  all_goals grind

/-- One of the eight neighbours. -/
def Pen.Adjacent (p q : Pen) : Prop :=
  |q.x - p.x| ≤ 1 ∧ |q.y - p.y| ≤ 1 ∧ (q.x ≠ p.x ∨ q.y ≠ p.y)

/-- The steps of the loop are of one pixel. -/
def Line.Unit : Prop := |l.sx| = 1 ∧ |l.sy| = 1

variable {l}

theorem Line.abs_pen (hu : l.Unit) (i j i' j' : Int) :
    |(l.pen i' j').x - (l.pen i j).x| = |i' - i| ∧ |(l.pen i' j').y - (l.pen i j).y| = |j' - j| := by
  have hx : (l.pen i' j').x - (l.pen i j).x = l.sx * (i' - i) := by simp only [Line.pen]; ring
  have hy : (l.pen i' j').y - (l.pen i j).y = l.sy * (j' - j) := by simp only [Line.pen]; ring
  rw [hx, hy, abs_mul, abs_mul, hu.1, hu.2, one_mul, one_mul]
  exact ⟨rfl, rfl⟩

theorem Line.pen_end : (l.pen l.dx (-l.dy)).x = l.x1 ∧ (l.pen l.dx (-l.dy)).y = l.y1 := by
  simp [Line.pen]

theorem Line.run_pen (hu : l.Unit) {m : Nat} (h : Near l.dx (-l.dy) i j)
    (hl : left l.dx (-l.dy) i j = m) :
    ∃ pens, (∀ fuel, m < fuel → l.run fuel (l.pen i j) = some (l.pen i j :: pens)) ∧
      pens.length = m ∧ (l.pen i j :: pens).getLast? = some (l.pen l.dx (-l.dy)) ∧
      (l.pen i j :: pens).IsChain Pen.Adjacent ∧
      ∀ p ∈ l.pen i j :: pens, ∃ i j, Near l.dx (-l.dy) i j ∧ p = l.pen i j := by
  induction m generalizing i j with
  | zero =>
    obtain ⟨rfl, rfl⟩ := h.end hl
    refine ⟨[], fun fuel hf => ?_, rfl, rfl, .singleton _, ?_⟩
    · obtain ⟨fuel, rfl⟩ := Nat.exists_eq_succ_of_ne_zero hf.ne'
      rw [Line.run, if_pos (by simp [Line.pen])]
    · simpa using ⟨_, _, h, rfl⟩
  | succ m ih =>
    obtain ⟨i', j', hi, hj, hne, h', hl'⟩ := h.next hl
    obtain ⟨pens, hrun, hlen, hlast, hchain, hall⟩ := ih h' hl'
    refine ⟨_ :: pens, fun fuel hf => ?_, congrArg _ hlen, ?_, .cons_cons ?_ hchain, ?_⟩
    · obtain ⟨fuel, rfl⟩ := Nat.exists_eq_succ_of_ne_zero (Nat.ne_zero_of_lt hf)
      rw [Line.run, if_neg, Line.step_pen, ← hi, ← hj, hrun fuel (Nat.lt_of_succ_lt_succ hf)]
      · rfl
      · rintro ⟨hx, hy⟩
        obtain ⟨hi, hj⟩ := Line.abs_pen hu i j l.dx (-l.dy)
        rw [hx, Line.pen_end.1, sub_self, abs_zero] at hi
        rw [hy, Line.pen_end.2, sub_self, abs_zero] at hj
        grind [left]
    · rw [List.getLast?_cons_cons, hlast]
    · have hpen := Line.abs_pen hu i j i' j'
      grind [Pen.Adjacent]
    · exact List.forall_mem_cons.mpr ⟨⟨_, _, h, rfl⟩, hall⟩

theorem between_of_unit {x1 s : Int} (hs : |s| = 1) (hi : 0 ≤ i ∧ i ≤ a) :
    min (x1 - s * a) x1 ≤ x1 - s * (a - i) ∧ x1 - s * (a - i) ≤ max (x1 - s * a) x1 := by
  obtain rfl | rfl := eq_or_eq_neg_of_abs_eq hs
  all_goals omega

theorem Line.pen_near (hu : l.Unit) (h : Near l.dx (-l.dy) i j) {x0 y0 : Int}
    (hx : l.x1 - l.sx * l.dx = x0) (hy : l.y1 - l.sy * -l.dy = y0) :
    2 * |((l.pen i j).y - y0) * (l.x1 - x0) - ((l.pen i j).x - x0) * (l.y1 - y0)| ≤
      max l.dx (-l.dy) := by
  have hcross : ((l.pen i j).y - y0) * (l.x1 - x0) - ((l.pen i j).x - x0) * (l.y1 - y0) =
      l.sx * l.sy * (j * l.dx - i * -l.dy) := by
    rw [← hx, ← hy, Line.pen]
    ring
  rw [hcross, abs_mul, abs_mul, hu.1, hu.2]
  grind [h.below, h.above]

end Line

/-- `gfx_line` visits as many points as its longer side has, from one end to the other. -/
theorem gfx_line_visits {x0 y0 x1 y1 : Int}
    (h : |x0| < 2 ^ 28 ∧ |y0| < 2 ^ 28 ∧ |x1| < 2 ^ 28 ∧ |y1| < 2 ^ 28) :
    ∃ pens, (∀ fuel : Nat, max |x1 - x0| |y1 - y0| < fuel → gfxLine x0 y0 x1 y1 fuel = some pens) ∧
      pens.length = max |x1 - x0| |y1 - y0| + 1 ∧
      (∃ p, pens.head? = some p ∧ p.x = x0 ∧ p.y = y0) ∧
      (∃ p, pens.getLast? = some p ∧ p.x = x1 ∧ p.y = y1) ∧ pens.IsChain Pen.Adjacent ∧
      ∀ p ∈ pens, (min x0 x1 ≤ p.x ∧ p.x ≤ max x0 x1) ∧ (min y0 y1 ≤ p.y ∧ p.y ≤ max y0 y1) ∧
        2 * |(p.y - y0) * (x1 - x0) - (p.x - x0) * (y1 - y0)| ≤ max |x1 - x0| |y1 - y0| ∧
        -2 ^ 31 ≤ 2 * p.err ∧ 2 * p.err < 2 ^ 31 := by
  have hdx : (Line.between x0 y0 x1 y1).dx = |x1 - x0| := by grind [Line.between]
  have hdy : -(Line.between x0 y0 x1 y1).dy = |y1 - y0| := by grind [Line.between]
  have hx1 : (Line.between x0 y0 x1 y1).x1 = x1 := rfl
  have hy1 : (Line.between x0 y0 x1 y1).y1 = y1 := rfl
  have hx : x1 - (Line.between x0 y0 x1 y1).sx * |x1 - x0| = x0 := by grind [Line.between]
  have hy : y1 - (Line.between x0 y0 x1 y1).sy * |y1 - y0| = y0 := by grind [Line.between]
  have hu : (Line.between x0 y0 x1 y1).Unit := by grind [Line.between, Line.Unit]
  simp only [gfxLine]
  generalize Line.between x0 y0 x1 y1 = l at *
  have ha : 0 ≤ |x1 - x0| ∧ |x1 - x0| < 2 ^ 29 := by grind
  have hb : 0 ≤ |y1 - y0| ∧ |y1 - y0| < 2 ^ 29 := by grind
  rw [← hdx, ← hdy, ← hx1, ← hy1] at *
  have hnear : Near l.dx (-l.dy) 0 0 := by
    constructor
    all_goals omega
  obtain ⟨pens, hrun, hlen, hlast, hchain, hall⟩ :=
    Line.run_pen hu hnear (m := (max l.dx (-l.dy)).toNat) (by grind [left])
  have hpen : l.pen 0 0 = ⟨x0, y0, l.dx + l.dy⟩ := by
    simp only [Line.pen, sub_zero, hx, hy]
    grind
  refine ⟨_, fun fuel hf => ?_, ?_, ⟨_, rfl, ?_⟩, ⟨_, hlast, Line.pen_end⟩, hchain, fun p hp => ?_⟩
  · rw [← hpen]
    exact hrun fuel (by omega)
  · rw [List.length_cons, hlen]
    omega
  · rw [hpen]
    exact ⟨rfl, rfl⟩
  · obtain ⟨i, j, hn, rfl⟩ := hall p hp
    refine ⟨hx ▸ between_of_unit hu.1 hn.along, hy ▸ between_of_unit hu.2 hn.across,
      Line.pen_near hu hn hx hy, ?_⟩
    simp only [Line.pen]
    grind [hn.below, hn.above]

/-- From (0, 0) to (1, 2). -/
theorem gfx_line_visits_steep : ∃ pens, gfxLine 0 0 1 2 3 = some pens ∧ pens.length = 3 := by
  obtain ⟨pens, hrun, hlen, _⟩ := @gfx_line_visits 0 0 1 2 (by simp)
  simp only [sub_zero, abs_one, Nat.abs_ofNat] at hlen
  exact ⟨pens, hrun 3 (by simp), by omega⟩

end ManiOS.Gfx
