/-
  GnuWindows.PkgConfig.CursorProofs — the parser's cursor stays in the source.

  Every scan with a cursor is followed by the scan on lists: a position stands for the list
  of bytes from it on. The scan of a value is the one where the cursor jumps, over an
  escaped hash or newline; what is left is always enough.

  Proved: `parsepackage_safe`.
-/
import GnuWindows.PkgConfig.Cursor

namespace GnuWindows.PkgConfig.Cursor

open GnuWindows.Lib.Scan

variable {src : S8} {p q beg fin : Nat}

/-! ## Bytes and slices -/

theorem read_lt (h : p < src.length) : ∃ c, read src p = .ok c ∧ src.drop p = c :: src.drop (p + 1) := by
  refine ⟨src[p], ?_, List.drop_eq_getElem_cons h⟩
  rw [read, List.getElem?_eq_getElem h]

theorem drop_end (h : ¬ p < src.length) : src.drop p = [] := List.drop_eq_nil_of_le (Nat.le_of_not_lt h)

theorem s8span_ok (hbeg : beg ≤ fin) (hfin : fin ≤ src.length) :
    s8span src beg fin = .ok (span (src.drop beg) (src.drop fin)) := by
  have hlen : (src.drop beg).length - (src.drop fin).length = fin - beg := by
    rw [List.length_drop, List.length_drop]
    omega
  rw [s8span, if_pos ⟨hbeg, hfin⟩, span, hlen, List.drop_take]

theorem s8span_end (hp : p ≤ src.length) : s8span src p src.length = .ok (src.drop p) := by
  rw [s8span, if_pos ⟨hp, Nat.le_refl _⟩, List.take_length]

theorem escaped_le (s : S8) : escaped s ≤ s.length := by
  unfold escaped
  split
  · rename_i h
    exact (startswith_iff.mp h).length_le
  · split
    · rename_i h
      exact (startswith_iff.mp h).length_le
    · exact Nat.zero_le _

theorem hashat_ok {inside : Bool} (h : inside = true ↔ p < src.length) :
    hashat src inside p = .ok ((src.drop p).head? == some 0x23) := by
  unfold hashat
  cases hin : inside with
  | true =>
    obtain ⟨c, hread, hdrop⟩ := read_lt (h.mp hin)
    rw [if_pos rfl, hread, hdrop]
    rfl
  | false =>
    have hout : ¬ p < src.length := fun hlt => by simp [h.mpr hlt] at hin
    rw [if_neg Bool.false_ne_true, drop_end hout]
    rfl

/-! ## The loops of one line -/

/-- A loop that only moves the cursor, when each turn with a byte to read leaves the scan of
    the list as it was. -/
theorem skip_ok {turn : Nat → Except Fault (Nat ⊕ Nat)} {f : S8 → S8} (hnil : f [] = [])
    (hend : ∀ q, ¬ q < src.length → turn q = .ok (.inr q))
    (hturn : ∀ q c, q < src.length → read src q = .ok c → src.drop q = c :: src.drop (q + 1) →
      Goes src.length id (fun q' => q ≤ q' ∧ q' ≤ src.length ∧ f (src.drop q') = f (src.drop q))
        (fun r => q ≤ r ∧ r ≤ src.length ∧ src.drop r = f (src.drop q)) q (turn q)) (hp : p ≤ src.length) :
    ∃ q, scan src id turn p = .ok q ∧ p ≤ q ∧ q ≤ src.length ∧ src.drop q = f (src.drop p) := by
  refine loop_ends (I := fun q => p ≤ q ∧ q ≤ src.length ∧ f (src.drop q) = f (src.drop p))
    (fun q ⟨hpq, hq, heq⟩ => ?_) ⟨Nat.le_refl p, hp, rfl⟩
  by_cases h : q < src.length
  · obtain ⟨c, hread, hdrop⟩ := read_lt h
    refine (hturn q c h hread hdrop).imp ?_ ?_
    · rintro q' ⟨hle, hin, hsame⟩
      exact ⟨hpq.trans hle, hin, hsame.trans heq⟩
    · rintro r ⟨hle, hin, hrest⟩
      exact ⟨hpq.trans hle, hin, hrest.trans heq⟩
  · rw [hend q h]
    refine .stop ⟨hpq, hq, ?_⟩
    rw [← heq, drop_end h, hnil]

theorem skipspace_ok (hp : p ≤ src.length) : ∃ q, skipspace src p = .ok q ∧ p ≤ q ∧ q ≤ src.length ∧
    src.drop q = PkgConfig.skipspace (src.drop p) := by
  refine skip_ok rfl (fun q h => if_neg h) (fun q c h hread hdrop => ?_) hp
  rw [spaceturn, if_pos h, hread, hdrop]
  show Goes _ _ _ _ _ (.ok (if whitespace c then .inl (q + 1) else .inr q))
  cases hc : whitespace c with
  | true =>
    rw [PkgConfig.skipspace, List.dropWhile_cons_of_pos hc]
    exact .next (Nat.lt_succ_self q) h ⟨Nat.le_succ q, h, rfl⟩
  | false =>
    rw [PkgConfig.skipspace, List.dropWhile_cons_of_neg (by simp [hc])]
    exact .stop ⟨Nat.le_refl q, Nat.le_of_lt h, hdrop⟩

theorem skipline_ok (hp : p ≤ src.length) : ∃ q, skipline src p = .ok q ∧ p ≤ q ∧ q ≤ src.length ∧
    src.drop q = PkgConfig.skipline (src.drop p) := by
  refine skip_ok rfl (fun q h => if_neg h) (fun q c h hread hdrop => ?_) hp
  rw [commentturn, if_pos h, hread, hdrop, PkgConfig.skipline]
  show Goes _ _ _ _ _ (.ok (if c == 0x0a then .inr (q + 1) else .inl (q + 1)))
  by_cases hc : (c == 0x0a) = true
  · rw [if_pos hc, if_pos hc]
    exact .stop ⟨Nat.le_succ q, h, rfl⟩
  · rw [if_neg hc, if_neg hc]
    exact .next (Nat.lt_succ_self q) h ⟨Nat.le_succ q, h, rfl⟩

theorem scanname_ok (hp : p ≤ src.length) : ∃ t, scanname src p = .ok t ∧ p ≤ t.fin ∧ t.fin ≤ t.p ∧
    t.p ≤ src.length ∧ (t.c, src.drop t.p, src.drop t.fin) = PkgConfig.scanname (src.drop p) (src.drop p) 0 := by
  refine loop_ends (I := fun t : Name => p ≤ t.fin ∧ t.fin ≤ t.p ∧ t.p ≤ src.length ∧
    PkgConfig.scanname (src.drop t.p) (src.drop t.fin) t.c = PkgConfig.scanname (src.drop p) (src.drop p) 0)
    (fun t ⟨hbeg, hfin, ht, heq⟩ => ?_) ⟨Nat.le_refl p, Nat.le_refl p, hp, rfl⟩
  unfold nameturn
  by_cases h : t.p < src.length
  · obtain ⟨c, hread, hdrop⟩ := read_lt h
    rw [if_pos h, hread]
    show Goes _ _ _ _ _ (if c == 0x0a || c == 0x3d || c == 0x3a then .ok (.inr (Name.mk (t.p + 1) t.fin c))
      else .ok (.inl (Name.mk (t.p + 1) (if whitespace c then t.fin else t.p + 1) c)))
    rw [hdrop, PkgConfig.scanname] at heq
    by_cases hc : (c == 0x0a || c == 0x3d || c == 0x3a) = true
    · rw [if_pos hc] at heq ⊢
      exact .stop ⟨hbeg, Nat.le_succ_of_le hfin, h, heq⟩
    · rw [if_neg hc] at heq ⊢
      refine .next (Nat.lt_succ_self _) h ?_
      cases hw : whitespace c with
      | true =>
        rw [hw] at heq
        exact ⟨hbeg, Nat.le_succ_of_le hfin, h, heq⟩
      | false =>
        rw [hw] at heq
        exact ⟨by simp only [Bool.false_eq_true, if_false]; omega, Nat.le_refl _, h, heq⟩
  · rw [if_neg h]
    refine .stop ⟨hbeg, hfin, ht, ?_⟩
    rw [← heq, drop_end h]
    rfl

theorem skiplead_ok (hp : p ≤ src.length) : ∃ q, skiplead src p = .ok q ∧ p ≤ q ∧ q ≤ src.length ∧
    src.drop q = PkgConfig.skiplead (src.drop p) := by
  refine skip_ok (by rw [PkgConfig.skiplead]) (fun q h => if_neg h) (fun q c h hread hdrop => ?_) hp
  have hq : q ≤ src.length := Nat.le_of_lt h
  have hlead : PkgConfig.skiplead (src.drop q) = if c == 0x5c then
      if escaped (src.drop q) ≠ 0 then PkgConfig.skiplead ((src.drop q).drop (escaped (src.drop q))) else src.drop q
      else if c == 0x0a || !whitespace c then src.drop q else PkgConfig.skiplead (src.drop (q + 1)) := by
    rw [hdrop, PkgConfig.skiplead]
  rw [leadturn, if_pos h, hread]
  show Goes _ _ _ _ _ (if c == 0x5c then
      s8span src q src.length >>= fun s => .ok (if escaped s ≠ 0 then .inl (q + escaped s) else .inr q)
    else .ok (if c == 0x0a || !whitespace c then .inr q else .inl (q + 1)))
  rw [hlead]
  by_cases hslash : (c == 0x5c) = true
  · rw [if_pos hslash, if_pos hslash, s8span_end hq]
    show Goes _ _ _ _ _ (.ok (if escaped (src.drop q) ≠ 0 then .inl (q + escaped (src.drop q)) else .inr q))
    have hle := escaped_le (src.drop q)
    rw [List.length_drop] at hle
    by_cases hr : escaped (src.drop q) ≠ 0
    · rw [if_pos hr, if_pos hr, List.drop_drop]
      exact .next (by simp only [id]; omega) (by simp only [id]; omega) ⟨by omega, by omega, rfl⟩
    · rw [if_neg hr, if_neg hr]
      exact .stop ⟨Nat.le_refl q, hq, rfl⟩
  · rw [if_neg hslash, if_neg hslash]
    by_cases hc : (c == 0x0a || !whitespace c) = true
    · rw [if_pos hc, if_pos hc]
      exact .stop ⟨Nat.le_refl q, hq, rfl⟩
    · rw [if_neg hc, if_neg hc]
      exact .next (Nat.lt_succ_self q) h ⟨Nat.le_succ q, h, rfl⟩

/-- An escaped newline is in the source: before its last byte there is room for the loop's
    own step. -/
theorem newline_ok {t : Value} (h : t.p < src.length) :
    let r := escaped (src.drop t.p)
    ∃ t' : Value, (if r ≠ 0 then ⟨t.p + (r - 1), t.fin, true⟩ else t) = t' ∧
      t.p ≤ t'.p ∧ t'.p < src.length ∧ t'.fin = t.fin ∧
      (if r ≠ 0 then (((src.drop t.p).drop (r - 1)).tail, src.drop t.fin, true)
        else ((src.drop t.p).tail, src.drop t.fin, t.cleanup)) =
        (src.drop (t'.p + 1), src.drop t'.fin, t'.cleanup) := by
  intro r
  have hle : r ≤ _ := escaped_le (src.drop t.p)
  rw [List.length_drop] at hle
  by_cases hr : r ≠ 0
  · rw [if_pos hr, if_pos hr]
    refine ⟨_, rfl, Nat.le_add_right _ _, by show t.p + _ < _; omega, rfl, ?_⟩
    rw [List.drop_drop, List.tail_drop]
  · rw [if_neg hr, if_neg hr]
    refine ⟨t, rfl, Nat.le_refl _, h, rfl, ?_⟩
    rw [List.tail_drop]

/-- What a backslash escapes is in the source. -/
theorem slashturn_ok {t : Value} {c : UInt8} (h : t.p < src.length) (hdrop : src.drop t.p = c :: src.drop (t.p + 1))
    (hfin : t.fin ≤ t.p) : ∃ t', slashturn src t = .ok t' ∧ t.p ≤ t'.p ∧ t'.p < src.length ∧ t.fin ≤ t'.fin ∧
      t'.fin ≤ t'.p + 1 ∧ PkgConfig.scanslash c (src.drop (t.p + 1)) (src.drop t.fin) t.cleanup =
        (src.drop (t'.p + 1), src.drop t'.fin, t'.cleanup) := by
  have hhash : hashat src (decide (t.p < src.length - 1)) (t.p + 1) = .ok ((src.drop (t.p + 1)).head? == some 0x23) :=
    hashat_ok (by rw [decide_eq_true_iff]; omega)
  unfold slashturn PkgConfig.scanslash
  rw [hhash]
  cases hb : (src.drop (t.p + 1)).head? == some 0x23 with
  | true =>
    have hin : t.p + 1 < src.length := by
      by_contra hout
      rw [drop_end hout] at hb
      cases hb
    obtain ⟨t', ht', hp, hlt, hfin', heq⟩ := newline_ok (t := ⟨t.p + 1, t.p + 2, true⟩) hin
    have hp : t.p + 1 ≤ t'.p := hp
    have hfin' : t'.fin = t.p + 2 := hfin'
    refine ⟨t', ?_, by omega, hlt, by omega, by omega, ?_⟩
    · rw [← ht']
      show (s8span src (t.p + 1) src.length >>= fun s => .ok (if escaped s ≠ 0 then _ else _)) = _
      rw [s8span_end (Nat.le_of_lt hin)]
      rfl
    · rw [List.tail_drop]
      exact heq
  | false =>
    obtain ⟨t', ht', hp, hlt, hfin', heq⟩ := newline_ok h
    refine ⟨t', ?_, hp, hlt, by omega, by omega, ?_⟩
    · rw [← ht']
      show (s8span src t.p src.length >>= fun s => .ok (if escaped s ≠ 0 then _ else _)) = _
      rw [s8span_end (Nat.le_of_lt h)]
      rfl
    · rw [← hdrop]
      exact heq

theorem scanvalue_ok (hp : p ≤ src.length) : ∃ v, scanvalue src p = .ok v ∧ p ≤ v.fin ∧ p ≤ v.p ∧
    v.p ≤ src.length ∧ v.fin ≤ src.length ∧
    (src.drop v.p, src.drop v.fin, v.cleanup) = PkgConfig.scanvalue (src.drop p) (src.drop p) false := by
  refine loop_ends (I := fun v : Value => p ≤ v.fin ∧ v.fin ≤ v.p ∧ v.p ≤ src.length ∧
    PkgConfig.scanvalue (src.drop v.p) (src.drop v.fin) v.cleanup =
      PkgConfig.scanvalue (src.drop p) (src.drop p) false)
    (fun v ⟨hbeg, hfin, hv, heq⟩ => ?_) ⟨Nat.le_refl p, Nat.le_refl p, hp, rfl⟩
  unfold valueturn
  by_cases h : v.p < src.length
  · obtain ⟨c, hread, hdrop⟩ := read_lt h
    rw [if_pos h, hread]
    show Goes _ _ _ _ _ (if c == 0x0a then .ok (.inr v)
      else if c == 0x23 then skipline src v.p >>= fun q => .ok (.inr (Value.mk q v.fin v.cleanup))
      else if c == 0x5c then slashturn src v >>= fun t => .ok (.inl (Value.mk (t.p + 1) t.fin t.cleanup))
      else .ok (.inl (Value.mk (v.p + 1) (if whitespace c then v.fin else v.p + 1) v.cleanup)))
    rw [hdrop, PkgConfig.scanvalue] at heq
    by_cases hnl : (c == 0x0a) = true
    · rw [if_pos hnl] at heq ⊢
      refine .stop ⟨hbeg, by omega, hv, by omega, ?_⟩
      rw [hdrop]
      exact heq
    rw [if_neg hnl] at heq ⊢
    by_cases hhash : (c == 0x23) = true
    · obtain ⟨q, hq, hpq, hend, hrest⟩ := skipline_ok hv
      rw [if_pos hhash] at heq ⊢
      rw [hq]
      refine .stop ⟨hbeg, by show p ≤ q; omega, hend, by show v.fin ≤ _; omega, ?_⟩
      rw [← heq, ← hdrop, ← hrest]
    rw [if_neg hhash] at heq ⊢
    by_cases hslash : (c == 0x5c) = true
    · obtain ⟨t, ht, hpt, hlt, hfint, hroom, hslash'⟩ := slashturn_ok h hdrop hfin
      rw [if_pos hslash] at heq ⊢
      rw [ht]
      refine .next (by show v.p < t.p + 1; omega) hlt ⟨by show p ≤ t.fin; omega, hroom, hlt, ?_⟩
      rw [← heq, hslash']
    · rw [if_neg hslash] at heq ⊢
      refine .next (Nat.lt_succ_self _) h ?_
      cases hw : whitespace c with
      | true =>
        rw [hw] at heq
        exact ⟨hbeg, Nat.le_succ_of_le hfin, h, heq⟩
      | false =>
        rw [hw] at heq
        exact ⟨by simp only [Bool.false_eq_true, if_false]; omega, Nat.le_refl _, h, heq⟩
  · rw [if_neg h]
    refine .stop ⟨hbeg, by omega, hv, by omega, ?_⟩
    rw [← heq, drop_end h, PkgConfig.scanvalue]

/-! ## The lines -/

/-- The package with the value of a field, if it is stored. -/
def stored (store : Option (S8 → Pkg)) (pkg : Pkg) (value : S8) : Pkg :=
  match store with
  | some store => store value
  | none => pkg

theorem fieldturn_ok (hp : p ≤ src.length) (store : Option (S8 → Pkg)) (pkg : Pkg) :
    ∃ q, q ≤ src.length ∧ src.drop q = (scanfield (src.drop p)).1 ∧
      fieldturn src p store pkg = .ok (.inl ⟨stored store pkg (scanfield (src.drop p)).2, q⟩) := by
  obtain ⟨beg, hbeg, -, hend, hlead⟩ := skiplead_ok hp
  obtain ⟨v, hv, hfin, -, hvp, hvfin, hvalue⟩ := scanvalue_ok hend
  have hfield : scanfield (src.drop p) = (src.drop v.p, if v.cleanup then
      stripescapes (span (src.drop beg) (src.drop v.fin)) else span (src.drop beg) (src.drop v.fin)) := by
    simp only [scanfield, ← hlead, ← hvalue]
  refine ⟨v.p, hvp, by rw [hfield], ?_⟩
  rw [fieldturn, hbeg]
  show (scanvalue src beg >>= _) = _
  rw [hv, hfield]
  cases store with
  | none => rfl
  | some store =>
    show (contents src beg v >>= _) = _
    rw [contents, s8span_ok hfin hvfin]
    rfl

theorem lt_of_drop_lt (h : (src.drop q).length < (src.drop p).length) : p < q := by
  rw [List.length_drop, List.length_drop] at h
  omega

/-- A field is behind the cursor, and then the parser goes on. -/
theorem fieldturn_goes {t : Line} {pos : Nat} (hpos : pos ≤ src.length)
    (hlt : (src.drop pos).length < (src.drop t.p).length) (store : Option (S8 → Pkg)) {r : Parseresult}
    (hr : parseloop (stored store t.pkg (scanfield (src.drop pos)).2) (scanfield (src.drop pos)).1 = r) :
    Goes src.length Line.p (fun t' => t'.p ≤ src.length ∧ parseloop t'.pkg (src.drop t'.p) = r) (fun r' => r' = r) t
      (fieldturn src pos store t.pkg) := by
  obtain ⟨q, hq, hdrop, hfield⟩ := fieldturn_ok hpos store t.pkg
  have hle := scanfield_le (src.drop pos)
  rw [← hdrop] at hle
  rw [hfield]
  refine .next (lt_of_drop_lt (Nat.lt_of_le_of_lt hle hlt)) hq ⟨hq, ?_⟩
  show parseloop _ (src.drop q) = r
  rw [hdrop]
  exact hr

/-- A line does not fail, and the cursor is behind it unless the parser returns. -/
theorem lineturn_goes (t : Line) (ht : t.p ≤ src.length) :
    Goes src.length Line.p (fun t' => t'.p ≤ src.length ∧
        parseloop t'.pkg (src.drop t'.p) = parseloop t.pkg (src.drop t.p))
      (fun r => r = parseloop t.pkg (src.drop t.p)) t (lineturn src t) := by
  unfold lineturn
  by_cases h : t.p < src.length
  · have hne : src.drop t.p ≠ [] := by
      rw [← List.length_pos_iff, List.length_drop]
      omega
    obtain ⟨p, hp, -, hend, hspace⟩ := skipspace_ok ht
    have hhash : hashat src (decide (p < src.length)) p = .ok ((src.drop p).head? == some 0x23) :=
      hashat_ok decide_eq_true_iff
    rw [if_pos h]
    simp only [hp, hhash, ok_bind]
    rw [parseloop, dif_neg hne]
    simp only [← hspace]
    by_cases hb : ((src.drop p).head? == some 0x23) = true
    · obtain ⟨q, hq, -, hqend, hline⟩ := skipline_ok hend
      rw [if_pos hb, if_pos hb, hq]
      have hlt := skipline_skipspace_lt hne
      rw [← hspace, ← hline] at hlt
      refine .next (lt_of_drop_lt hlt) hqend ⟨hqend, ?_⟩
      rw [← hline]
    · obtain ⟨line, hname, hfin, hle, hlend, hscan⟩ := scanname_ok hend
      have hline : scanline (src.drop p) = (line.c, span (src.drop p) (src.drop line.fin), src.drop line.p) := by
        rw [scanline, ← hscan]
      have hlt := scanline_skipspace_lt hne
      rw [← hspace, hline] at hlt
      rw [if_neg hb, if_neg hb]
      simp only [hname, s8span_ok hfin (hle.trans hlend), ok_bind, hline]
      by_cases heq : (line.c == 0x3d) = true
      · rw [if_pos heq, if_pos heq]
        rcases t.pkg.env.find (span (src.drop p) (src.drop line.fin)) with _ | _ | value
        · exact fieldturn_goes hlend hlt _ rfl
        · exact fieldturn_goes hlend hlt _ rfl
        · exact .stop rfl
      rw [if_neg heq, if_neg heq]
      by_cases hcolon : (line.c == 0x3a) = true
      · rw [if_pos hcolon, if_pos hcolon]
        rcases fieldbyname (span (src.drop p) (src.drop line.fin)) with _ | i
        · exact fieldturn_goes hlend hlt none rfl
        · by_cases hdup : (t.pkg.field i).isSome = true
          · simp only [if_pos hdup]
            exact .stop rfl
          · simp only [if_neg hdup]
            exact fieldturn_goes hlend hlt _ rfl
      · rw [if_neg hcolon, if_neg hcolon]
        exact .next (lt_of_drop_lt hlt) hlend ⟨hlend, rfl⟩
  · rw [if_neg h]
    refine .stop ?_
    rw [drop_end h, parseloop, dif_pos rfl]

/-- For every source: there is no fault, so every byte is read in the source, every slice
    ends between its start and the end, and every turn of a loop that goes on brings the
    cursor forward and at most to the end. The result is the parser's. In particular a turn
    of the outer loop from any state of the package does so. -/
theorem parsepackage_safe (src : S8) : parsepackage src = .ok (PkgConfig.parsepackage src) ∧
    ∀ t : Line, t.p ≤ src.length → ∀ t', lineturn src t = .ok (.inl t') → t.p < t'.p ∧ t'.p ≤ src.length := by
  constructor
  · have hloop : ∃ r, parsepackage src = .ok r ∧ r = PkgConfig.parsepackage src := by
      refine loop_ends (I := fun t => t.p ≤ src.length ∧ parseloop t.pkg (src.drop t.p) = PkgConfig.parsepackage src)
        ?_ ⟨Nat.zero_le _, rfl⟩
      rintro t ⟨ht, heq⟩
      exact heq ▸ lineturn_goes t ht
    obtain ⟨r, hr, rfl⟩ := hloop
    exact hr
  · intro t ht t' hturn
    have hgoes := lineturn_goes t ht
    rw [hturn] at hgoes
    cases hgoes with
    | next hlt hle => exact ⟨hlt, hle⟩

end GnuWindows.PkgConfig.Cursor
