import ManiOS.Mm.UserPages

/-!
# What is in a program's memory

`Contents` describes the user half of an address space as a program sees it: which
addresses are mapped, which pages may be written, and what the bytes are.  A page of
zeros, a byte written and a page made read-only each change one of the three.
-/

namespace ManiOS.Mm

open Function (update)

namespace Paging

/-- The addresses of `T` are mapped, `w` says which page numbers are writable, and the
bytes are those of `c`.  Nothing else has changed since `s0`. -/
structure Contents (pages : List Space) (pending : Nat → Option (Nat × Nat)) (T : Nat → Prop)
    (w : Nat → Bool) (c : Nat → UInt8) (s0 s : Paging) : Prop where
  layout : ∃ own, Settled own pages pending s
  rest : s = { s0 with pmm := s.pmm, ram := s.ram }
  mapped : ∀ v < userSpaceTop, T v → ∃ f, s.walk v = some ⟨f, w (v / pageSize), true, false⟩
  unmapped : ∀ v < userSpaceTop, ¬ T v → s.walk v = none
  kernel : ∀ v, userSpaceTop ≤ v → pdIndexOf v < ptAreaIndex → s.walk v = s0.walk v
  bytes : ∀ v < userSpaceTop, T v → s.byteAt v = some (c v)

/-- Bytes in place of others. -/
def overlay (c : Nat → UInt8) (addr : Nat) (bs : List UInt8) : Nat → UInt8 := fun v =>
  if addr ≤ v ∧ v < addr + bs.length then bs.getD (v - addr) 0 else c v

theorem overlay_cons (c : Nat → UInt8) (addr : Nat) (b : UInt8) (bs : List UInt8) :
    overlay (update c addr b) (addr + 1) bs = overlay c addr (b :: bs) := by
  funext v
  rw [overlay, overlay, List.length_cons, Function.update_apply]
  by_cases hv : v = addr
  · rw [if_neg (by omega), if_pos hv, if_pos (by omega), hv, Nat.sub_self, List.getD_cons_zero]
  · rw [if_neg hv]
    by_cases hin : addr + 1 ≤ v ∧ v < addr + 1 + bs.length
    · rw [if_pos hin, if_pos (by omega), show v - addr = v - (addr + 1) + 1 by omega,
        List.getD_cons_succ]
    · rw [if_neg hin, if_neg (by omega)]

variable {pages : List Space} {pending : Nat → Option (Nat × Nat)} {T T' : Nat → Prop}
  {w : Nat → Bool} {c c' : Nat → UInt8} {s0 s s' : Paging} {own own' : Roles} {v : Nat}

theorem byteAt_eq {e : Entry} (h : s.walk v = some e) :
    s.byteAt v = some (s.ram e.frame (v % pageSize)) := by
  rw [byteAt, page, h]
  rfl

namespace Contents

section

variable (h : Contents pages pending T w c s0 s)
include h

theorem congr (hT : ∀ v < userSpaceTop, T' v ↔ T v)
    (hc : ∀ v < userSpaceTop, T v → c' v = c v) : Contents pages pending T' w c' s0 s := { h with
  mapped v hv ht := h.mapped v hv ((hT v hv).mp ht)
  unmapped v hv ht := h.unmapped v hv fun ht' => ht ((hT v hv).mpr ht')
  bytes v hv ht := by
    rw [hc v hv ((hT v hv).mp ht)]
    exact h.bytes v hv ((hT v hv).mp ht) }

theorem same_page {u : Nat} (hu : u < userSpaceTop)
    (hv : v < userSpaceTop) (heq : u / pageSize = v / pageSize) (ht : T v) : T u := by
  by_contra hnot
  obtain ⟨f, hf⟩ := h.mapped v hv ht
  cases ((h.unmapped u hu hnot).symm.trans (walk_page heq)).trans hf

theorem noFrame (hn : NoFrame s s') : Contents pages pending T w c s0 s' := by
  obtain ⟨own, hlayout⟩ := h.layout
  have hlayout' := hlayout.noFrame hn
  obtain ⟨m, rfl, -⟩ := hn
  have hrest : ({ s with pmm := m } : Paging) = { s0 with pmm := m, ram := s.ram } := by
    rw [h.rest]
  exact ⟨⟨own, hlayout'⟩, hrest, h.mapped, h.unmapped, h.kernel, h.bytes⟩

theorem add (hlayout : Settled own pages pending s) (ha : Adds pages pending v own own' s s')
    (hw : w (v / pageSize) = true) (hv : v < userSpaceTop)
    (hc : ∀ u, u / pageSize = v / pageSize → c u = 0) :
    Contents pages pending (fun u => T u ∨ u / pageSize = v / pageSize) w c s0 s' := by
  have hrest : s' = { s0 with pmm := s'.pmm, ram := s'.ram } := by
    rw [ha.rest, h.rest]
  obtain ⟨f, hf, -, hzero⟩ := ha.page
  refine ⟨⟨own', ha.layout⟩, hrest, fun u hu ht => ?_, fun u hu ht => ?_, fun u hu hi => ?_,
    fun u hu ht => ?_⟩
  · by_cases heq : u / pageSize = v / pageSize
    · rw [walk_page heq, heq, hw]
      exact ⟨f, hf⟩
    · rw [ha.walk u (user_index hu) heq]
      exact h.mapped u hu (ht.resolve_right heq)
  · rw [not_or] at ht
    rw [ha.walk u (user_index hu) ht.2]
    exact h.unmapped u hu ht.1
  · rw [ha.walk u hi fun heq => ?_]
    · exact h.kernel u hu hi
    · simp only [pageSize, userSpaceTop] at *
      omega
  · by_cases heq : u / pageSize = v / pageSize
    · rw [byteAt_eq ((walk_page heq).trans hf), hc u heq]
      exact congrArg some (hzero _)
    · rw [hlayout.byteAt_apart ha.walk ha.data hu heq]
      exact h.bytes u hu (ht.resolve_right heq)

theorem setByteAt (hv : v < userSpaceTop) (ht : T v) (b : UInt8) :
    ∃ s', s.setByteAt v b = some s' ∧ Contents pages pending T w (update c v b) s0 s' := by
  obtain ⟨own, hlayout⟩ := h.layout
  obtain ⟨f, hf⟩ := h.mapped v hv ht
  have hrole := hlayout.walk_role hv hf
  have hpage : s.page v = some f := by rw [page, hf, Option.map_some]
  refine ⟨{ s with ram := s.ram.setByte f (v % pageSize) b }, ?_, ?_⟩
  · rw [Paging.setByteAt, hpage, Option.map_some]
  have htables : ∀ g a, own g = some a → a.IsTable →
      (s.ram.setByte f (v % pageSize) b).entry g = s.ram.entry g := fun g a hg ha => by
    refine Ram.entry_congr (Ram.setByte_of_ne (role_ne hg hrole ?_))
    rintro rfl
    exact ha
  have hwalk : ∀ u, pdIndexOf u < ptAreaIndex →
      walk u { s with ram := s.ram.setByte f (v % pageSize) b } = s.walk u := fun u hu =>
    hlayout.walk_congr htables hu
  have hrest : ({ s with ram := s.ram.setByte f (v % pageSize) b } : Paging) =
      { s0 with pmm := s.pmm, ram := s.ram.setByte f (v % pageSize) b } := by
    rw [h.rest]
  refine ⟨⟨own, hlayout.of_data hlayout.ok hlayout.used (fun _ _ hg _ => hg) htables, hlayout.pend⟩, hrest,
    fun u hu htu => ?_, fun u hu htu => ?_, fun u hu hi => ?_, fun u hu htu => ?_⟩
  · rw [hwalk u (user_index hu)]
    exact h.mapped u hu htu
  · rw [hwalk u (user_index hu)]
    exact h.unmapped u hu htu
  · rw [hwalk u hi]
    exact h.kernel u hu hi
  · obtain ⟨g, hg⟩ := h.mapped u hu htu
    have hbyte := h.bytes u hu htu
    rw [byteAt_eq hg] at hbyte
    rw [byteAt_eq ((hwalk u (user_index hu)).trans hg)]
    dsimp only at hbyte ⊢
    rw [Function.update_apply]
    refine congrArg some (ite_congr (propext ⟨fun hc => ?_, ?_⟩) (fun _ => rfl) fun _ =>
      Option.some.inj hbyte)
    · -- the same frame is the same page
      have hpu : s.page u = some f := by rw [page, hg, ← hc.1, Option.map_some]
      have := hlayout.page_inj hu hv hpu hpage
      simp only [pageSize] at *
      omega
    · rintro rfl
      cases hg.symm.trans hf
      exact ⟨rfl, rfl⟩

theorem writeBytes (bs : List UInt8) (ht : ∀ i < bs.length, v + i < userSpaceTop ∧ T (v + i)) :
    ∃ s', (writeBytes bs v s).result = some (.ok s') ∧
      Contents pages pending T w (overlay c v bs) s0 s' := by
  induction bs generalizing v s c with
  | nil =>
    refine ⟨s, rfl, h.congr (fun _ _ => Iff.rfl) fun u _ _ => if_neg ?_⟩
    rw [List.length_nil]
    omega
  | cons b bs ih =>
    obtain ⟨hv, htv⟩ := ht 0 (Nat.succ_pos _)
    obtain ⟨s1, hs1, h1⟩ := h.setByteAt hv htv b
    obtain ⟨s2, hs2, h2⟩ := ih (v := v + 1) h1 fun i hi => by
      rw [Nat.add_assoc, Nat.add_comm 1 i]
      exact ht (i + 1) (Nat.succ_lt_succ hi)
    refine ⟨s2, ?_, overlay_cons c v b bs ▸ h2⟩
    have hnext : u32 (v + 1) = v + 1 := u32_of_lt (by simp only [userSpaceTop] at hv; omega)
    rw [Nat.add_zero] at hs1
    rw [Paging.writeBytes, hs1, hnext]
    exact hs2

theorem setReadOnly (hv : v < userSpaceTop) (ht : T v) :
    ∃ ok s', s.setWritable v false = some (ok, s') ∧
      Contents pages pending T (update w (v / pageSize) false) c s0 s' := by
  obtain ⟨own, hlayout⟩ := h.layout
  obtain ⟨hvirt, hi⟩ := user_area hv
  have hindex := user_index hv
  obtain ⟨f, hf⟩ := h.mapped v hv ht
  have hrole := hlayout.walk_role hv hf
  rcases hlayout.change hvirt fun pte => some { pte with writable := false } with
    ⟨hnone | hrec, -⟩ | ⟨-, e, pte, he, hpte, hs⟩
  · cases hnone.symm.trans hf
  · rw [hrec] at hi
    exact absurd hi (by decide)
  · cases hpte.symm.trans ((walk_eq he).symm.trans hf)
    have hsmall : f < 1048576 := Ram.entry_fits _ _ _ _ hpte
    have hfits : Entry.Fits (some ⟨f, false, true, false⟩) := Entry.fits_some hsmall
    obtain ⟨hself, hothers⟩ := hlayout.walk_setEntry hindex he hfits
    obtain ⟨a, ha, -, htable⟩ := hlayout.table_role hindex he
    have hdata : ∀ g b, own g = some b → ¬ b.IsTable →
        s.ram.setEntry e.frame (ptIndexOf v) (some ⟨f, false, true, false⟩) g = s.ram g := by
      intro g b hg hb
      refine Ram.setEntry_of_ne_frame (role_ne hg ha ?_)
      rintro rfl
      exact hb htable
    have hlayout' := hlayout.setUserEntry (m := s.pmm) hlayout.active hi he
      (Ram.entry_setEntry hfits) (.inl hlayout.pend) (fun _ _ => rfl) (fun _ _ hg _ _ => hg)
      (fun e' he' _ => by cases he'; exact hrole) hlayout.ok hlayout.used
    refine ⟨true, _, by rw [setWritable, hs]; rfl, ⟨own, hlayout', hlayout.pend⟩, ?_, fun u hu htu => ?_,
      fun u hu htu => ?_, fun u hu hiu => ?_, fun u hu htu => ?_⟩
    · rw [h.rest]
    · by_cases heq : u / pageSize = v / pageSize
      · rw [walk_page heq, heq, Function.update_self]
        exact ⟨f, hself⟩
      · rw [Function.update_of_ne heq, hothers u (user_index hu) heq]
        exact h.mapped u hu htu
    · rw [hothers u (user_index hu) fun heq => ?_]
      · exact h.unmapped u hu htu
      · cases ((walk_page heq).symm.trans (h.unmapped u hu htu)).symm.trans hf
    · rw [hothers u hiu fun heq => ?_]
      · exact h.kernel u hu hiu
      · simp only [pageSize, userSpaceTop] at *
        omega
    · rw [← h.bytes u hu htu]
      by_cases heq : u / pageSize = v / pageSize
      · rw [byteAt_eq ((walk_page heq).trans hself), byteAt_eq ((walk_page heq).trans hf)]
        exact congrArg some (congrFun (hdata f _ hrole id) _)
      · exact hlayout.byteAt_apart hothers hdata hu heq

end

end Contents

end Paging

end ManiOS.Mm
