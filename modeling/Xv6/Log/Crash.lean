import Xv6.Log.Commit

/-!
# Crash atomicity of the log

`Durable sb l new disk` describes a disk from which recovery produces the array `new`; with an empty
list it says that the disk is clean.  While `commit` fills the log area the disk is `Durable []` for
the old contents, then `Durable l` for the new contents until the second write of the header, and
then `Durable []`.
-/

namespace Xv6

open Function (update update_of_ne update_self)
open Prog

/-- The state `t` is `s` after `n` block writes that have made the disk `d`. -/
structure Kern.After (s : Kern) (n : Nat) (d : Nat → Block) (t : Kern) : Prop where
  log : t.log = s.log
  disk : t.disk = d
  writes : t.writes = s.writes + n
  left : s.left = none → t.left = none

theorem Kern.After.refl (s : Kern) : s.After 0 s.disk s := ⟨rfl, rfl, rfl, id⟩

theorem Kern.After.same {s t u : Kern} {n : Nat} {d : Nat → Block} (h : s.After n d t)
    (hu : t.SameDisk u) : s.After n d u :=
  ⟨hu.log.trans h.log, hu.disk.trans h.disk, hu.writes.trans h.writes,
    fun hnone => hu.left.trans (h.left hnone)⟩

theorem Kern.After.wrote {s t u : Kern} {n b : Nat} {d : Nat → Block} {x : Block}
    (h : s.After n d t) (hu : t.Wrote u b x) : s.After (n + 1) (update d b x) u where
  log := hu.log.trans h.log
  disk := by rw [hu.disk, h.disk]
  writes := by rw [hu.writes, h.writes, Nat.add_assoc]
  left hnone := hu.left (h.left hnone)

theorem Kern.After.trans {s t u : Kern} {n m : Nat} {d d' : Nat → Block} (h : s.After n d t)
    (hu : t.After m d' u) : s.After (n + m) d' u :=
  ⟨hu.log.trans h.log, hu.disk, by rw [hu.writes, h.writes, Nat.add_assoc],
    fun hnone => hu.left (h.left hnone)⟩

/-! ## The two loops -/

/-- The first `k` log slots have been filled. -/
def withSlots (start : Nat) (l : List Nat) (new : Nat → Block) (k : Nat) (d : Nat → Block) :
    Nat → Block :=
  fun b => if start < b ∧ b ≤ start + k then new (l.getD (b - start - 1) 0) else d b

/-- The first `k` blocks of the list have been installed. -/
def installed (l : List Nat) (new : Nat → Block) (k : Nat) (d : Nat → Block) : Nat → Block :=
  fun b => if b ∈ l.take k then new b else d b

section Loops

variable {start k : Nat} {l : List Nat} {new d : Nat → Block}

theorem withSlots_zero : withSlots start l new 0 d = d := by
  funext b
  exact if_neg (by omega)

theorem withSlots_succ :
    update (withSlots start l new k d) (start + k + 1) (new (l.getD k 0)) =
      withSlots start l new (k + 1) d := by
  funext b
  by_cases hb : b = start + k + 1
  · subst hb
    rw [update_self, withSlots, if_pos (by omega), show start + k + 1 - start - 1 = k by omega]
  · rw [update_of_ne hb, withSlots, withSlots]
    simp only [show (start < b ∧ b ≤ start + (k + 1)) ↔ (start < b ∧ b ≤ start + k) by omega]

theorem installed_zero : installed l new 0 d = d := by
  funext b
  exact if_neg (by simp)

theorem mem_take_succ {b : Nat} (hk : k < l.length) :
    b ∈ l.take (k + 1) ↔ b ∈ l.take k ∨ b = l.getD k 0 := by
  rw [List.take_succ_eq_append_getElem hk, List.mem_append, List.mem_singleton,
    List.getD_eq_getElem _ _ hk]

theorem installed_succ (hk : k < l.length) :
    update (installed l new k d) (l.getD k 0) (new (l.getD k 0)) =
      installed l new (k + 1) d := by
  funext b
  by_cases hb : b = l.getD k 0
  · rw [hb, update_self, installed, if_pos ((mem_take_succ hk).mpr (.inr rfl))]
  · rw [update_of_ne hb, installed, installed]
    simp only [mem_take_succ hk, hb, or_false]

variable {s : Kern} {lg : Log} {me : Nat} {cont : Nat → Block} {E : Stop → Kern → Prop}
  {Q : Unit → Kern → Prop}

theorem wp_writeLog (hlog : s.log = lg) (h : s.At lg.dev me cont lg.lh [])
    (hout : ∀ k, k < lg.lh.length → lg.start + k + 1 ∉ lg.lh)
    (hE : ∀ e t k, k < lg.lh.length → t.Halts lg.lh.length e →
      s.After k (withSlots lg.start lg.lh cont k s.disk) t → E e t)
    (hQ : ∀ t, t.At lg.dev me (withSlots lg.start lg.lh cont lg.lh.length cont)
        lg.lh [] →
      s.After lg.lh.length (withSlots lg.start lg.lh cont lg.lh.length s.disk) t →
      Q () t) :
    wp (writeLog me) Q E s := by
  simp only [writeLog, wp_bind, wp_get, hlog]
  let I : Nat → Kern → Prop := fun k t =>
    t.At lg.dev me (withSlots lg.start lg.lh cont k cont) lg.lh [] ∧
      s.After k (withSlots lg.start lg.lh cont k s.disk) t
  have hloop : wp (times (writeLogAt me) lg.lh.length) (fun _ => I lg.lh.length) E s := by
    refine wp_times I ⟨by rwa [withSlots_zero], by rw [withSlots_zero]; exact .refl s⟩ ?_
    rintro k t hk ⟨hAt, ht⟩
    have hmem : lg.lh.getD k 0 ∈ lg.lh := by
      rw [List.getD_eq_getElem _ _ hk]
      exact List.getElem_mem hk
    -- the block that is copied is not a log block
    have hsrc : withSlots lg.start lg.lh cont k cont (lg.lh.getD k 0) =
        cont (lg.lh.getD k 0) := by
      refine if_neg fun hslot => ?_
      obtain ⟨hlt, hle⟩ := hslot
      obtain ⟨j, hj⟩ : ∃ j, lg.lh.getD k 0 = lg.start + j + 1 :=
        ⟨lg.lh.getD k 0 - lg.start - 1, by omega⟩
      exact hout j (by omega) (hj ▸ hmem)
    refine wp_writeLogAt (ht.log.trans hlog) hAt rfl hmem (hout k hk)
      (fun e u he hu => hE e u k hk ?_ (ht.same hu)) fun u hu hw => ?_
    · exact he.imp (And.imp_right fun hl => hu.left.trans hl) id
    · rw [hsrc] at hu hw
      exact ⟨withSlots_succ ▸ hu, withSlots_succ ▸ ht.wrote hw⟩
  exact hloop.mono_ok fun _ t ht => hQ t ht.1 ht.2

theorem wp_installTrans (new : Nat → Block) {recovering : Bool} (hlog : s.log = lg)
    (h : s.At lg.dev me cont (if recovering then [] else lg.lh) [])
    (hnodup : recovering = false → lg.lh.Nodup)
    (hout : ∀ k, k < lg.lh.length → lg.start + k + 1 ∉ lg.lh)
    (hslot : ∀ k, k < lg.lh.length → cont (lg.start + k + 1) = new (lg.lh.getD k 0))
    (hE : ∀ e t k, k < lg.lh.length →
      t.Halts (if recovering then [] else lg.lh).length e →
      s.After k (installed lg.lh new k s.disk) t → E e t)
    (hQ : ∀ t, t.At lg.dev me (installed lg.lh new lg.lh.length cont) [] [] →
      s.After lg.lh.length (installed lg.lh new lg.lh.length s.disk) t → Q () t) :
    wp (installTrans me recovering) Q E s := by
  simp only [installTrans, wp_bind, wp_get, hlog]
  let pins : Nat → List Nat := fun k => if recovering then [] else lg.lh.drop k
  let I : Nat → Kern → Prop := fun k t =>
    t.At lg.dev me (installed lg.lh new k cont) (pins k) [] ∧
      s.After k (installed lg.lh new k s.disk) t
  have hsub : ∀ k b, b ∈ pins k → b ∈ lg.lh := by
    intro k b hb
    cases recovering with
    | true => exact absurd hb List.not_mem_nil
    | false => exact List.mem_of_mem_drop hb
  have hlen : ∀ k, (pins k).length ≤ (if recovering then [] else lg.lh).length := by
    intro k
    cases recovering with
    | true => exact le_rfl
    | false => exact (List.drop_sublist k _).length_le
  have hloop : wp (times (installTransAt me recovering) lg.lh.length)
      (fun _ => I lg.lh.length) E s := by
    refine wp_times I ⟨?_, by rw [installed_zero]; exact .refl s⟩ ?_
    · rw [installed_zero]
      exact h
    rintro k t hk ⟨hAt, ht⟩
    have hcopy : installed lg.lh new k cont (lg.start + k + 1) = new (lg.lh.getD k 0) := by
      rw [← hslot k hk]
      exact if_neg fun hm => hout k hk (List.mem_of_mem_take hm)
    have hne : lg.start + k + 1 ≠ lg.lh.getD k 0 := by
      rw [List.getD_eq_getElem _ _ hk]
      exact fun heq => hout k hk (heq ▸ List.getElem_mem hk)
    refine wp_installTransAt (pins (k + 1)) (ht.log.trans hlog) hAt rfl hne
      (fun hm => hout k hk (hsub k _ hm)) ?_
      (fun e u he hu => hE e u k hk ?_ (ht.same hu)) fun u hu hw => ?_
    · cases recovering with
      | true => exact ⟨rfl, (by decide : 0 + 1 < nbuf)⟩
      | false =>
        have hdrop := List.drop_eq_getElem_cons hk
        have hnd := (hnodup rfl).sublist (List.drop_sublist k lg.lh)
        rw [hdrop] at hnd
        rw [List.getD_eq_getElem _ _ hk]
        exact ⟨hdrop, (List.nodup_cons.mp hnd).1⟩
    · exact he.imp (And.imp_right fun hl => hu.left.trans hl)
        (And.imp_right fun hn => hn.trans (hlen k))
    · rw [hcopy] at hu hw
      exact ⟨installed_succ hk ▸ hu, installed_succ hk ▸ ht.wrote hw⟩
  refine hloop.mono_ok fun _ t ht => hQ t ?_ ht.2
  have hnil : pins lg.lh.length = [] := by
    cases recovering with
    | true => rfl
    | false => exact List.drop_length
  exact hnil ▸ ht.1

end Loops

/-! ## Disks that recovery can repair -/

def Superblock.Home (sb : Superblock) (b : Nat) : Prop :=
  b < sb.logstart ∨ sb.logstart + sb.nlog ≤ b

instance (sb : Superblock) : DecidablePred sb.Home := fun b =>
  inferInstanceAs (Decidable (b < sb.logstart ∨ sb.logstart + sb.nlog ≤ b))

/-- The blocks of a transaction: outside the log area, and no more of them than the log and its
header have room for. -/
structure Superblock.Fits (sb : Superblock) (l : List Nat) : Prop where
  length_le : l.length ≤ logSize
  length_lt : l.length < sb.nlog
  home : ∀ b ∈ l, sb.Home b

/-- Recovery from `disk` produces `new`: the header lists `l`, the log slots hold the new contents
of these blocks, and the other blocks outside the log area have theirs. -/
structure Durable (sb : Superblock) (l : List Nat) (new disk : Nat → Block) : Prop where
  fits : sb.Fits l
  headN_eq : headN (disk sb.logstart) = l.length
  head_eq : head (disk sb.logstart) = l
  slot : ∀ k, k < l.length → disk (sb.logstart + k + 1) = new (l.getD k 0)
  rest : ∀ b, sb.Home b → b ∉ l → disk b = new b

section Durable

variable {sb : Superblock} {l : List Nat} {old new disk : Nat → Block} {k b : Nat} {x : Block}

theorem Superblock.Fits.slot_not_mem (h : sb.Fits l) (hk : k < l.length) :
    sb.logstart + k + 1 ∉ l := by
  intro hm
  have := h.length_lt
  rcases h.home _ hm with h' | h' <;> omega

theorem Superblock.Fits.start_not_mem (h : sb.Fits l) : sb.logstart ∉ l := by
  intro hm
  have := h.length_lt
  rcases h.home _ hm with h' | h' <;> omega

theorem Superblock.Fits.nil (h : sb.Fits l) : sb.Fits [] :=
  ⟨by simp, Nat.zero_lt_of_lt h.length_lt, by simp⟩

theorem headN_putHead_nil : headN (putHead [] x 0) = 0 := headN_putHead (Nat.zero_le _) 0

theorem head_eq_nil {d : Block} (h : headN d = 0) : head d = [] := by
  rw [head, h]
  rfl

theorem Durable.of_headN (hsb : sb.Fits []) (h : headN (disk sb.logstart) = 0)
    (hnew : ∀ b, sb.Home b → disk b = new b) : Durable sb [] new disk :=
  ⟨hsb, h, head_eq_nil h, by simp, fun b hb _ => hnew b hb⟩

theorem Durable.withSlots (h : Durable sb [] old disk) (hl : sb.Fits l) (hk : k ≤ l.length) :
    Durable sb [] old (withSlots sb.logstart l new k disk) := by
  have := hl.length_lt
  refine .of_headN h.fits ?_ fun b hb => ?_
  · rw [Xv6.withSlots, if_neg (by omega)]
    exact h.headN_eq
  · rw [Xv6.withSlots, if_neg (by rcases hb with hb | hb <;> omega)]
    exact h.rest b hb (by simp)

/-- **The commit point**: with all slots filled, writing the header makes the new contents
durable. -/
theorem Durable.commit (hl : sb.Fits l) (hlt : ∀ b ∈ l, b < 2 ^ 32)
    (hold : ∀ b, sb.Home b → b ∉ l → disk b = new b) :
    Durable sb l new (update (Xv6.withSlots sb.logstart l new l.length disk) sb.logstart
      (putHead l x l.length)) where
  fits := hl
  headN_eq := by rw [update_self, headN_putHead hl.length_le]
  head_eq := by rw [update_self, head_putHead hl.length_le hlt]
  slot k hk := by
    rw [update_of_ne (by omega), Xv6.withSlots, if_pos (by omega),
      show sb.logstart + k + 1 - sb.logstart - 1 = k by omega]
  rest b hb hbl := by
    have := hl.length_lt
    rw [update_of_ne (by rcases hb with hb | hb <;> omega), Xv6.withSlots,
      if_neg (by rcases hb with hb | hb <;> omega), hold b hb hbl]

theorem Durable.installed (h : Durable sb l new disk) (k : Nat) :
    Durable sb l new (installed l new k disk) := by
  have hkeep : ∀ b, b ∉ l → Xv6.installed l new k disk b = disk b := fun b hb =>
    if_neg fun hm => hb (List.mem_of_mem_take hm)
  refine ⟨h.fits, ?_, ?_, fun j hj => ?_, fun b hb hbl => ?_⟩
  · rw [hkeep _ h.fits.start_not_mem, h.headN_eq]
  · rw [hkeep _ h.fits.start_not_mem, h.head_eq]
  · rw [hkeep _ (h.fits.slot_not_mem hj), h.slot j hj]
  · rw [hkeep b hbl, h.rest b hb hbl]

theorem Durable.clear (h : Durable sb l new disk) :
    Durable sb [] new (update (Xv6.installed l new l.length disk) sb.logstart
      (putHead [] x 0)) := by
  have := h.fits.length_lt
  refine .of_headN h.fits.nil ?_ fun b hb => ?_
  · rw [update_self, headN_putHead_nil]
  · rw [update_of_ne (by rcases hb with hb | hb <;> omega), Xv6.installed,
      List.take_length]
    split
    · rfl
    · exact h.rest b hb ‹_›

end Durable

/-! ## Commit -/

def Log.sb (lg : Log) : Superblock := ⟨lg.start, lg.size⟩

/-- The current transaction: distinct blocks outside the log area that fit the log. -/
structure Log.Tx (lg : Log) : Prop where
  fits : lg.sb.Fits lg.lh
  nodup : lg.lh.Nodup
  lt : ∀ b ∈ lg.lh, b < 2 ^ 32

/-- A commit that began in `s` has reached `t`: before the header was written the disk is clean with
the old contents, and from then on the new contents are durable. -/
def CommitPoint (s : Kern) (new : Nat → Block) (t : Kern) : Prop :=
  if s.writes + s.log.lh.length < t.writes then ∃ l, Durable s.log.sb l new t.disk
  else Durable s.log.sb [] s.disk t.disk

section Commit

variable {s t : Kern} {me : Nat} {new : Nat → Block}

theorem CommitPoint.of_lt (h : s.writes + s.log.lh.length < t.writes) {l : List Nat}
    (hd : Durable s.log.sb l new t.disk) : CommitPoint s new t := by
  rw [CommitPoint, if_pos h]
  exact ⟨l, hd⟩

theorem CommitPoint.of_le (h : t.writes ≤ s.writes + s.log.lh.length)
    (hd : Durable s.log.sb [] s.disk t.disk) : CommitPoint s new t := by
  rwa [CommitPoint, if_neg (by omega)]

/-- **`commit`** reaches only commit points.  It is stopped only by the machine being switched off or by
pins filling the cache; when it returns the new contents are on the disk and nothing is pinned. -/
theorem wp_commit (h : s.At s.log.dev me new s.log.lh []) (htx : s.log.Tx)
    (hclean : headN (s.disk s.log.start) = 0) :
    wp (commit me)
      (fun _ t => CommitPoint s new t ∧ t.log = { s.log with lh := [] } ∧
        (s.left = none → t.left = none) ∧ Durable s.log.sb [] new t.disk ∧
        ∃ cont, t.At s.log.dev me cont [] [] ∧ ∀ b, s.log.sb.Home b → cont b = new b)
      (fun e t => CommitPoint s new t ∧ t.Halts s.log.lh.length e ∧ (s.left = none → t.left = none))
      s := by
  have hold : Durable s.log.sb [] s.disk s.disk := .of_headN htx.fits.nil hclean fun _ _ => rfl
  have hsame : ∀ b, b ∉ s.log.lh → s.disk b = new b := fun b hb => h.disk_eq hb
  simp only [commit, wp_bind, wp_get]
  split
  · have hout : ∀ k, k < s.log.lh.length → s.log.start + k + 1 ∉ s.log.lh :=
      fun k hk => htx.fits.slot_not_mem hk
    -- fill the log slots
    rw [wp_bind]
    refine wp_writeLog rfl h hout (fun e t k hk he ht => ⟨?_, he, ht.left⟩) fun s1 h1 hs1 => ?_
    · refine .of_le (by rw [ht.writes]; omega) ?_
      rw [ht.disk]
      exact hold.withSlots htx.fits hk.le
    -- write the header: the commit point
    refine .bind (wp_writeHead hs1.log h1 (fun e t he ht => ⟨?_, ?_, (hs1.same ht).left⟩)
      fun s2 d hd h2 hw => ?_)
    · refine .of_le (by rw [(hs1.same ht).writes]) ?_
      rw [(hs1.same ht).disk]
      exact hold.withSlots htx.fits le_rfl
    · exact he.imp (And.imp_right fun hl => ht.left.trans hl) id
    have hs2 := hs1.wrote hw
    have hdur : Durable s.log.sb s.log.lh new s2.disk := by
      rw [hs2.disk, hd]
      exact .commit htx.fits htx.lt fun b _ hb => hsame b hb
    -- install the blocks
    refine .bind (wp_installTrans new hs2.log h2 (fun _ => htx.nodup) hout (fun k hk => ?_)
      (fun e t k hk he ht => ⟨?_, he, (hs2.trans ht).left⟩) fun s3 h3 hs3 => ?_)
    · rw [update_of_ne (by omega), withSlots, if_pos (by omega),
        show s.log.start + k + 1 - s.log.start - 1 = k by omega]
    · refine .of_lt (by rw [(hs2.trans ht).writes]; omega) (l := s.log.lh) ?_
      rw [ht.disk]
      exact hdur.installed k
    -- clear the header
    have hs3' := hs2.trans hs3
    rw [wp_bind, clearHead, wp_modify, hs3'.log]
    refine wp_writeHead rfl (h3.withLog _) (fun e t he ht => ⟨?_, ?_, ?_⟩) fun s4 d' hd' h4 hw' => ?_
    · refine .of_lt (by rw [ht.writes, hs3'.writes]; omega) (l := s.log.lh) ?_
      rw [ht.disk]
      show Durable s.log.sb s.log.lh new s3.disk
      rw [hs3.disk]
      exact hdur.installed _
    · exact he.imp (And.imp_right fun hl => ht.left.trans hl)
        (And.imp_right fun hn => absurd hn (by decide))
    · exact fun hnone => ht.left.trans (hs3'.left hnone)
    have hdur' : Durable s.log.sb [] new s4.disk := by
      rw [hw'.disk, hd']
      show Durable s.log.sb [] new (update s3.disk _ _)
      rw [hs3.disk]
      exact hdur.clear
    refine ⟨.of_lt (by rw [hw'.writes, hs3'.writes]; omega) hdur', hw'.log,
      fun hnone => hw'.left (hs3'.left hnone), hdur', _, h4, fun b hb => ?_⟩
    have hlt := htx.fits.length_lt
    have hb' : b ≠ s.log.start ∧ ¬(s.log.start < b ∧ b ≤ s.log.start + s.log.lh.length) := by
      simp only [Superblock.Home, Log.sb] at hb hlt
      omega
    rw [update_of_ne hb'.1, installed, update_of_ne hb'.1, withSlots,
      if_neg hb'.2, ite_self]
  · rename_i hn
    have hnil : s.log.lh = [] := List.eq_nil_of_length_eq_zero (by omega)
    refine ⟨.of_le (by omega) hold, by rw [← hnil], id, ?_, new, hnil ▸ h, fun _ _ => rfl⟩
    exact .of_headN htx.fits.nil hclean fun b _ => hsame b (by simp [hnil])

end Commit

/-! ## Recovery -/

/-- The kernel when `initlog` is called: the cache is fresh, and the log has not been set up. -/
def Kern.boot (disk : Nat → Block) (left : Option Nat) : Kern where
  bcache := .binit
  log := ⟨0, 0, 0, false, 0, []⟩
  disk := disk
  writes := 0
  left := left

section Recovery

variable {s : Kern} {lg : Log} {dev me : Nat} {cont new disk : Nat → Block} {l : List Nat}
  {sb : Superblock} {left : Option Nat} {E : Stop → Kern → Prop} {Q : Unit → Kern → Prop}

theorem Kern.boot_at (hdev : dev ≠ 0) : (Kern.boot disk left).At dev me disk [] [] where
  rep := Bcache.rep_binit hdev
  ref i := by simp [Kern.boot, Bcache.binit]
  lock i := rfl
  held i hi := absurd hi List.not_mem_nil
  pinned b hb := absurd hb List.not_mem_nil

theorem wp_readHead (hlog : s.log = lg) (h : s.At lg.dev me cont [] [])
    (hfit : headN (cont lg.start) ≤ logSize)
    (hQ : ∀ t, t.At lg.dev me cont [] [] →
      Kern.SameDisk { s with log := { lg with lh := head (cont lg.start) } } t → Q () t) :
    wp (readHead me) Q E s := by
  rw [readHead, wp_bind, wp_get, wp_bind, hlog]
  refine wp_bread h (by simp) (.inr (.inl (by decide))) fun i s1 hs1 h1 hc1 _ _ => ?_
  have hdata : (s1.bcache.buf i).data = cont lg.start := by
    rw [h1.data_eq List.mem_cons_self, hc1.2]
  have hdisk : s1.disk lg.start = cont lg.start := by
    rw [hs1.disk]
    exact h.disk_eq List.not_mem_nil
  rw [wp_bind, wp_get]
  simp only [hdata]
  rw [if_neg (not_lt.mpr hfit), wp_bind, wp_set]
  refine wp_brelse [] (h1.withLog _) List.mem_cons_self hc1.2 (.inr hdisk) (by simp)
    fun s2 hs2 h2 _ => hQ s2 h2 ⟨?_, ?_, ?_, ?_⟩
  · rw [hs2.log, hs1.log, hlog]
  · rw [hs2.disk]
    exact hs1.disk
  · rw [hs2.writes]
    exact hs1.writes
  · rw [hs2.left]
    exact hs1.left

/-- **Recovery** produces what is durable, which it is still wherever the machine is switched off. -/
theorem wp_initlog (left : Option Nat) (hdev : dev ≠ 0) (hd : Durable sb l new disk) :
    wp (initlog me dev sb) (fun _ t => Durable sb [] new t.disk)
      (fun _ t => left ≠ none ∧ ∃ l, Durable sb l new t.disk) (.boot disk left) := by
  have hsome : ∀ t : Kern, (left = none → t.left = none) → t.left = some 0 → left ≠ none :=
    fun t ht h0 hnone => absurd ((ht hnone).symm.trans h0) (by simp)
  simp only [initlog, wp_bind, wp_modify, if_neg (show ¬4 + 4 * logSize ≥ bsize by decide)]
  rw [recoverFromLog, wp_bind]
  refine wp_readHead rfl ((Kern.boot_at hdev).withLog _) ?_ fun s1 h1 hs1 => ?_
  · show headN (disk sb.logstart) ≤ logSize
    rw [hd.headN_eq]
    exact_mod_cast hd.fits.length_le
  have hlog : s1.log = ⟨sb.logstart, sb.nlog, 0, false, dev, l⟩ := by
    rw [hs1.log]
    exact congrArg (fun l => (⟨sb.logstart, sb.nlog, 0, false, dev, l⟩ : Log)) hd.head_eq
  have hdisk : s1.disk = disk := hs1.disk
  have hleft : s1.left = left := hs1.left
  refine .bind (wp_installTrans new hlog h1 (by simp) (fun k hk => hd.fits.slot_not_mem hk)
    (fun k hk => hd.slot k hk) (fun e t k hk he ht => ⟨?_, l, ?_⟩) fun s2 h2 hs2 => ?_)
  · rcases he with ⟨-, he⟩ | ⟨-, he⟩
    · exact hsome t (hleft ▸ ht.left) he
    · exact absurd he (show ¬nbuf ≤ 0 by decide)
  · rw [ht.disk, hdisk]
    exact hd.installed k
  rw [wp_bind, clearHead, wp_modify, hs2.log, hlog]
  refine wp_writeHead rfl (h2.withLog _) (fun e t he ht => ⟨?_, l, ?_⟩) fun s3 d hdh h3 hw => ?_
  · rcases he with ⟨-, he⟩ | ⟨-, he⟩
    · exact hsome s2 (hleft ▸ hs2.left) he
    · exact absurd he (by decide)
  · rw [ht.disk]
    show Durable sb l new s2.disk
    rw [hs2.disk, hdisk]
    exact hd.installed _
  · rw [hw.disk, hdh]
    show Durable sb [] new (update s2.disk _ _)
    rw [hs2.disk, hdisk]
    exact hd.clear

end Recovery

/-! ## The whole story -/

/-- The disk after a boot during which the machine is switched off after `k` block writes, or after
the recovery if that needs fewer. -/
def reboot (me dev : Nat) (sb : Superblock) (disk : Nat → Block) (k : Nat) : Nat → Block :=
  (final (initlog me dev sb) (.boot disk (some k))).disk

section Story

variable {s : Kern} {dev me : Nat} {new disk : Nat → Block} {l : List Nat} {sb : Superblock}

theorem durable_reboots (hdev : dev ≠ 0) (stops : List Nat) (h : Durable sb l new disk) :
    ∃ l, Durable sb l new (stops.foldl (reboot me dev sb) disk) := by
  induction stops generalizing l disk with
  | nil => exact ⟨l, h⟩
  | cons k stops ih =>
    have hreboot : ∃ l, Durable sb l new (reboot me dev sb disk k) :=
      wp.final (R := fun t => ∃ l, Durable sb l new t.disk)
        ((wp_initlog (some k) hdev h).mono (fun _ _ ht => ⟨[], ht⟩) fun _ _ ht => ht.2)
    obtain ⟨l', h'⟩ := hreboot
    exact ih h'

/-- **Crash atomicity.**  Let the cache hold a transaction.  Switch the machine off anywhere during
the commit, or not at all, and then anywhere during any number of boots.  The next boot that is not
cut short leaves a clean header and, outside the log area, the new contents if the header of the
transaction had reached the disk, and the old contents if not. -/
theorem crash_atomicity (hdev : s.log.dev ≠ 0) (htx : s.log.Tx)
    (hclean : headN (s.disk s.log.start) = 0) (h : s.At s.log.dev me new s.log.lh [])
    (stops : List Nat) :
    ∃ u, initlog me s.log.dev s.log.sb (.boot (stops.foldl (reboot me s.log.dev s.log.sb)
        (final (commit me) s).disk) none) = .ok () u ∧
      headN (u.disk s.log.start) = 0 ∧
      ∀ b, s.log.sb.Home b → u.disk b =
        if s.writes + s.log.lh.length < (final (commit me) s).writes then new b else s.disk b := by
  have hpoint : CommitPoint s new (final (commit me) s) :=
    wp.final ((wp_commit h htx hclean).mono (fun _ _ ht => ht.1) fun _ _ ht => ht.1)
  -- what is durable when the machine is switched off
  obtain ⟨res, l, hres, hl⟩ : ∃ res l, (∀ b, res b =
      if s.writes + s.log.lh.length < (final (commit me) s).writes then new b else s.disk b) ∧
      Durable s.log.sb l res (final (commit me) s).disk := by
    rw [CommitPoint] at hpoint
    split at hpoint
    · rename_i hlt
      obtain ⟨l, hl⟩ := hpoint
      exact ⟨new, l, fun b => (if_pos hlt).symm, hl⟩
    · rename_i hge
      exact ⟨s.disk, [], fun b => (if_neg hge).symm, hpoint⟩
  obtain ⟨l', hl'⟩ : ∃ l, Durable s.log.sb l res
      (stops.foldl (reboot me s.log.dev s.log.sb) (final (commit me) s).disk) :=
    durable_reboots hdev stops hl
  obtain ⟨_, u, hu, hd⟩ := ((wp_initlog none hdev hl').mono
    (fun _ _ ht => ht) fun _ _ ht => ht.1 rfl).exists_ok
  exact ⟨u, hu, hd.headN_eq, fun b hb => (hd.rest b hb (by simp)).trans (hres b)⟩

/-- The cache after the blocks of a transaction, and nothing else, have been read, changed to `f`
and logged. -/
def Kern.holding (lg : Log) (disk f : Nat → Block) (left : Option Nat) : Kern where
  bcache :=
    { buf := fun i =>
        if h : i < lg.lh.length then ⟨true, lg.dev, lg.lh[i], none, 1, f lg.lh[i]⟩
        else ⟨false, 0, 0, none, 0, fun _ => 0⟩
      lru := List.finRange nbuf }
  log := lg
  disk := disk
  writes := 0
  left := left

theorem Kern.holding_at {lg : Log} {f : Nat → Block} {left : Option Nat} (hdev : lg.dev ≠ 0)
    (htx : lg.Tx) : (Kern.holding lg disk f left).At lg.dev me
      (fun b => if b ∈ lg.lh then f b else disk b) lg.lh [] := by
  have hbuf : ∀ i (h : i.val < lg.lh.length), (Kern.holding lg disk f left).bcache.buf i =
      ⟨true, lg.dev, lg.lh[i], none, 1, f lg.lh[i]⟩ := fun i h => dif_pos h
  have hbuf' : ∀ i : BufId, ¬i.val < lg.lh.length →
      (Kern.holding lg disk f left).bcache.buf i = ⟨false, 0, 0, none, 0, fun _ => 0⟩ :=
    fun i h => dif_neg h
  -- a buffer of the device is one of the transaction
  have hof : ∀ i, ((Kern.holding lg disk f left).bcache.buf i).dev = lg.dev → i.val < lg.lh.length := by
    intro i hi
    by_contra hge
    rw [hbuf' i hge] at hi
    exact hdev hi.symm
  refine ⟨⟨fun i => List.mem_finRange i, fun i j hi hj heq => ?_, fun i hi _ => ?_, fun b hne => ?_⟩,
    fun i => ?_, fun i => ?_, by simp, fun b hb => ?_⟩
  · rw [hbuf i (hof i hi), hbuf j (hof j hj)] at heq
    exact Fin.ext ((List.Nodup.getElem_inj_iff htx.nodup).mp heq)
  · rw [hbuf i (hof i hi)]
    simp
  · have hb : b ∈ lg.lh := by
      by_contra hb
      exact hne (if_neg hb).symm
    obtain ⟨i, hi, rfl⟩ := List.getElem_of_mem hb
    have hlt : i < nbuf := hi.trans_le htx.fits.length_le
    exact ⟨⟨i, hlt⟩, by simp [hbuf ⟨i, hlt⟩ hi]⟩
  · by_cases hi : i.val < lg.lh.length
    · simp [hbuf i hi]
    · simp [hbuf' i hi, hdev.symm]
  · by_cases hi : i.val < lg.lh.length
    · simp [hbuf i hi]
    · simp [hbuf' i hi]
  · obtain ⟨i, hi, rfl⟩ := List.getElem_of_mem hb
    have hlt : i < nbuf := hi.trans_le htx.fits.length_le
    exact ⟨⟨i, hlt⟩, by simp [Bcache.Cached, hbuf ⟨i, hlt⟩ hi]⟩

end Story

/-- A transaction of two blocks, on a disk of zeros, to be overwritten with ones; the machine will
be switched off after four block writes, when one of the two has been installed. -/
def twoBlocks : Kern :=
  .holding ⟨2, nlog, 0, true, rootDev, [46, 47]⟩ (fun _ _ => 0) (fun _ _ => 1) (some 4)

/-- Two more boots are cut short, one of them before its first block write, and the third one
completes the transaction. -/
theorem crash_atomicity_twoBlocks :
    ∃ u, initlog 0 rootDev ⟨2, nlog⟩ (.boot ([0, 1].foldl (reboot 0 rootDev ⟨2, nlog⟩)
        (final (commit 0) twoBlocks).disk) none) = .ok () u ∧
      headN (u.disk 2) = 0 ∧ u.disk 46 = (fun _ => 1) ∧ u.disk 47 = (fun _ => 1) ∧
      u.disk 48 = fun _ => 0 := by
  have htx : twoBlocks.log.Tx := ⟨⟨by decide, by decide, by decide⟩, by decide, by decide⟩
  have hat : twoBlocks.At twoBlocks.log.dev 0 (fun b => if b ∈ twoBlocks.log.lh then fun _ => 1 else fun _ => 0)
      twoBlocks.log.lh [] := Kern.holding_at (by decide) htx
  obtain ⟨u, hu, hhead, hdisk⟩ := crash_atomicity (s := twoBlocks) (by decide) htx
    (by decide +kernel) hat [0, 1]
  have hwrites : twoBlocks.writes + twoBlocks.log.lh.length < (final (commit 0) twoBlocks).writes := by
    decide +kernel
  simp only [if_pos hwrites] at hdisk
  exact ⟨u, hu, hhead, (hdisk 46 (by decide)).trans rfl, (hdisk 47 (by decide)).trans rfl,
    (hdisk 48 (by decide)).trans rfl⟩

end Xv6
