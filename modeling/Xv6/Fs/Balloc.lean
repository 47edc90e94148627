import Xv6.Fs.Sound

/-!
# The search for a free block

In `balloc` the block number `b` is an `int`, while `sb.size` is unsigned.  Beyond 2³¹ blocks `b`
becomes negative, and `BBLOCK(b, sb)` is a block in front of the bitmap (`Vol.ballocInt`).  Up to
there the search is the one of `Vol.balloc`.
-/

namespace Xv6.Fs

open Function (update_of_ne update_self)
open Prog

attribute [local irreducible] wp

/-- `BBLOCK(b, sb)` for an `int`, which is a multiple of `BPB` where it is used. -/
def bblockInt (bmapstart : Nat) (b : BitVec 32) : Nat :=
  ((b.toInt / bpb + bmapstart) % 2 ^ 32).toNat

namespace Vol

/-- The outer loop of `balloc`, with `n` rounds left, for any `sb.size` and `sb.bmapstart`. -/
def ballocIntFrom (size bmapstart : Nat) : Nat → BitVec 32 → V Nat
  | 0, _ => return 0
  | n + 1, b =>
    if b.toNat < size then do
      let s ← get
      let d := s.block (bblockInt bmapstart b)
      match freeBit size d b.toNat bpb 0 with
      | some bi =>
        write (bblockInt bmapstart b) (d.setBit bi)
        bzero (b.toNat + bi)
        return b.toNat + bi
      | none => ballocIntFrom size bmapstart n (b + .ofNat 32 bpb)
    else return 0

def ballocInt (size bmapstart : Nat) : V Nat := ballocIntFrom size bmapstart (size / bpb + 1) 0

def First (L : Layout) (d : Nat → Block) (x : Nat) : Prop :=
  x < L.size ∧ L.bit d x = false ∧ ∀ c < x, L.bit d c = true

/-- What `balloc` is to do: find the first block, mark it and clear it, and nothing else; `bfree` then
undoes it. -/
structure Exact (L : Layout) (s : Vol) (a : Nat) (t : Vol) : Prop where
  found : ∀ x, First L s.block x → a = x ∧ t.block x = (fun _ => 0) ∧
    (∀ c < L.size, L.bit t.block c = (decide (c = x) || L.bit s.block c)) ∧
    (∀ c ≠ x, c ≠ L.bblock x → t.block c = s.block c) ∧
    ∃ u, bfree L x t = .ok () u ∧ ∀ c < L.size, L.bit u.block c = L.bit s.block c
  full : (∀ c < L.size, L.bit s.block c = true) → a = 0 ∧ t = s

/-- `balloc` returns, and has done just that. -/
def Precise (L : Layout) (s : Vol) : Prop := ∃ a t, ballocInt L.size L.bmapstart s = .ok a t ∧ Exact L s a t

/-- No mark is lost when the first free block is cleared. -/
def Harmless (L : Layout) (s : Vol) : Prop :=
  ∀ x, First L s.block x → ∀ c < L.size, L.bblock c = x → c ≠ x ∧ L.bit s.block c = false

variable {L : Layout} {s : Vol} {a b n x : Nat}

theorem First.unique (ha : First L s.block a) (hx : First L s.block x) : a = x := by
  rcases Nat.lt_trichotomy a x with h | h | h
  · exact absurd (hx.2.2 a h) (by simp [ha.2.1])
  · exact h
  · exact absurd (ha.2.2 x h) (by simp [hx.2.1])

theorem First.exists (h : ∃ c < L.size, L.bit s.block c = false) : ∃ x, First L s.block x := by
  obtain ⟨hlt, hclear⟩ := Nat.find_spec h
  refine ⟨Nat.find h, hlt, hclear, fun c hc => ?_⟩
  have hmin := Nat.find_min h hc
  simpa using fun hbit => hmin ⟨hc.trans hlt, hbit⟩

/-! ## Up to 2³¹ blocks -/

theorem bblockInt_eq (hb : b < L.size) : bblockInt L.bmapstart (.ofNat 32 b) = L.bblock b := by
  have hsize := L.size_le
  have htoInt : (BitVec.ofNat 32 b).toInt = b := by
    rw [BitVec.toInt_eq_toNat_cond, BitVec.toNat_ofNat, Nat.mod_eq_of_lt (by omega),
      if_pos (by omega)]
  have hmap := L.bmap_le
  rw [bblockInt, Layout.bblock, htoInt]
  simp only [bpb, bsize] at *
  omega

theorem ballocIntFrom_eq (hb : b < L.size + bpb) :
    ballocIntFrom L.size L.bmapstart n (.ofNat 32 b) = ballocFrom L n b := by
  induction n generalizing b with
  | zero => rfl
  | succ n ih =>
    have hbpb : bpb = 8192 := rfl
    have hsize := L.size_le
    have hnat : (BitVec.ofNat 32 b).toNat = b := by
      rw [BitVec.toNat_ofNat, Nat.mod_eq_of_lt (by omega)]
    rw [ballocIntFrom, ballocFrom, hnat]
    by_cases hlt : b < L.size
    · rw [if_pos hlt, if_pos hlt, bblockInt_eq hlt, ← BitVec.ofNat_add]
      refine bind_congr fun s => ?_
      dsimp only
      cases freeBit L.size (s.block (L.bblock b)) b bpb 0 with
      | some bi => rfl
      | none => exact ih (by omega)
    · rw [if_neg hlt, if_neg hlt]

theorem bit_zero (k : Nat) : Bytes.bit (fun _ => 0 : Block) k = false := by
  rw [Bytes.bit_eq, Bytes.byte]
  split <;> simp

theorem bit_alloc (c : Nat) : L.bit (s.alloc L x).block c =
    if L.bblock c = x then false else (decide (c = x) || L.bit s.block c) := by
  show L.bit (Function.update (L.setBit s.block x) x fun _ => 0) c = _
  split
  · rename_i hc
    rw [Layout.bit, hc, update_self, bit_zero]
  · rename_i hc
    rw [Layout.bit_update (Ne.symm hc), Layout.bit_setBit]

theorem bfree_eq (hop : s.inOp = true) (hb : L.bit s.block b = true) :
    ∃ t, bfree L b s = .ok () t ∧ (∀ c, L.bit t.block c = (decide (c ≠ b) && L.bit s.block c)) ∧
      ∀ c ≠ L.bblock b, t.block c = s.block c := by
  have hrun : wp (bfree L b) (fun _ t => t = s.free L b) (fun _ _ => False) s := wp_bfree hop hb rfl
  obtain ⟨_, t, hok, ht⟩ := hrun.exists_ok
  have hblock : t.block = L.clearBit s.block b := by
    rw [ht]
    rfl
  refine ⟨t, hok, fun c => ?_, fun c hc => ?_⟩
  · rw [hblock, Layout.bit_clearBit]
  · rw [hblock, Layout.clearBit, update_of_ne hc]

theorem exact_alloc_iff (hop : s.inOp = true) (hx : First L s.block x) :
    Exact L s x (s.alloc L x) ↔ ∀ c < L.size, L.bblock c = x → c ≠ x ∧ L.bit s.block c = false := by
  constructor
  · intro h c hc hcx
    have hbit := (h.found x hx).2.2.1 c hc
    rw [bit_alloc, if_pos hcx] at hbit
    simpa using hbit.symm
  · intro h
    refine ⟨fun y hy => ?_, fun hfull => absurd (hfull x hx.1) (by simp [hx.2.1])⟩
    obtain rfl := hx.unique hy
    have hbits : ∀ c < L.size,
        L.bit (s.alloc L x).block c = (decide (c = x) || L.bit s.block c) := by
      intro c hc
      rw [bit_alloc]
      split
      · rename_i hcx
        simp [h c hc hcx]
      · rfl
    refine ⟨rfl, update_self .., hbits, fun c hc hb => ?_, ?_⟩
    · show Function.update (L.setBit s.block x) x (fun _ => 0) c = _
      rw [update_of_ne hc, Layout.setBit, update_of_ne hb]
    · have hopt : (s.alloc L x).inOp = true := hop
      have hmark : L.bit (s.alloc L x).block x = true := by simp [hbits x hx.1]
      obtain ⟨u, hok, hu, -⟩ := bfree_eq hopt hmark
      refine ⟨u, hok, fun c hc => ?_⟩
      rw [hu, hbits c hc]
      by_cases hcx : c = x
      · simp [hcx, hx.2.1]
      · simp [hcx]

theorem precise_iff (hop : s.inOp = true) : Precise L s ↔ Harmless L s := by
  have hrun : wp (balloc L) (fun a t => Exact L s a t ↔ Harmless L s) (fun _ _ => False) s := by
    refine wp_balloc hop (fun hfull => ?_) fun a ha hbit hbefore => ?_
    · refine iff_of_true ⟨fun x hx => ?_, fun _ => ⟨rfl, rfl⟩⟩ fun x hx => ?_
      all_goals exact absurd (hfull x hx.1) (by simp [hx.2.1])
    · have hfirst : First L s.block a := ⟨ha, hbit, hbefore⟩
      rw [exact_alloc_iff hop hfirst]
      refine ⟨fun h x hx => hfirst.unique hx ▸ h, fun h => h a hfirst⟩
  have heq : ballocInt L.size L.bmapstart = balloc L :=
    ballocIntFrom_eq (b := 0) (by simp [bpb, bsize])
  obtain ⟨a, t, hok, hiff⟩ := hrun.exists_ok
  rw [Precise, heq, hok]
  constructor
  · rintro ⟨a', t', he, h⟩
    cases he
    exact hiff.mp h
  · intro h
    exact ⟨a, t, rfl, hiff.mpr h⟩

/-- **`balloc` is exact**, where the bitmap marks its own blocks as in use (`mkfs` marks them, and
`balloc` never gives them out): it returns the first block that is not marked, and marks and clears
that block only.  `bfree` takes away the mark of its block only, so it undoes that. -/
theorem balloc_exact (L : Layout) (s : Vol) (hop : s.inOp = true)
    (hzero : L.bit s.block 0 = true)
    (hmarked : ∀ c < L.size, L.bit s.block (L.bblock c) = true) :
    (∃ a t, ballocInt L.size L.bmapstart s = .ok a t ∧ Exact L s a t ∧
      (a = 0 ↔ ∀ c < L.size, L.bit s.block c = true)) ∧
    ∀ b, L.bit s.block b = true → ∃ t, bfree L b s = .ok () t ∧
      (∀ c, L.bit t.block c = (decide (c ≠ b) && L.bit s.block c)) ∧
      ∀ c ≠ L.bblock b, t.block c = s.block c := by
  have hharmless : Harmless L s := by
    intro x hx c hc hcx
    have hset := hmarked c hc
    rw [hcx, hx.2.1] at hset
    cases hset
  obtain ⟨a, t, hok, hexact⟩ := (precise_iff hop).mpr hharmless
  refine ⟨⟨a, t, hok, hexact, fun ha => ?_, fun hfull => (hexact.full hfull).1⟩,
    fun b => bfree_eq hop⟩
  by_contra hsome
  obtain ⟨x, hx⟩ := First.exists (by simpa using hsome)
  obtain rfl : a = x := (hexact.found x hx).1
  exact absurd hx.2.1 (by simp [ha, hzero])

/-! ## Beyond 2³¹ blocks -/

/-- A bitmap in which only the marks for the blocks from 2³¹ on that are in one block are clear. -/
def farFree (bmapstart : Nat) : Vol :=
  { block := fun c => if c = bmapstart + 2 ^ 18 then fun _ => 0 else fun _ => 255
    ref := fun _ => 0, valid := fun _ => false, mem := fun _ => Dinode.zero, inuse := 0
    inOp := true, logged := [] }

theorem bit_ones {k : Nat} (hk : k < bpb) : Bytes.bit (fun _ => 255 : Block) k = true := by
  have h8 : ∀ j < 8, (255 : UInt8).toBitVec.getLsbD j = true := by decide
  have hlt : k / 8 < bsize := by
    simp only [bpb, bsize] at *
    omega
  rw [Bytes.bit_eq, Bytes.byte, dif_pos hlt]
  exact h8 _ (Nat.mod_lt k (by decide))

/-- The bitmap blocks for the blocks from 2³¹ on are never looked at, so `balloc` finds nothing. -/
theorem ballocInt_far {size m : Nat} (hm : m < 2 ^ 31) :
    ballocInt size m (farFree m) = .ok 0 (farFree m) := by
  suffices h : ∀ n b, ballocIntFrom size m n b (farFree m) = .ok 0 (farFree m) from h _ _
  intro n
  induction n with
  | zero => intro b; rfl
  | succ n ih =>
    intro b
    have hne : bblockInt m b ≠ m + 2 ^ 18 := by
      have hlo := BitVec.le_toInt b
      have hhi := BitVec.toInt_lt (x := b)
      rw [bblockInt]
      simp only [bpb, bsize] at *
      omega
    have hnone : freeBit size ((farFree m).block (bblockInt m b)) b.toNat bpb 0 = none := by
      have hones : (farFree m).block (bblockInt m b) = fun _ => 255 := if_neg hne
      rw [hones, Option.eq_none_iff_forall_ne_some]
      intro k hk
      obtain ⟨-, hlt, -, hclear, -⟩ := freeBit_some hk
      exact absurd (bit_ones hlt) (by simp [hclear])
    rw [ballocIntFrom]
    split
    · show (match freeBit size ((farFree m).block (bblockInt m b)) b.toNat bpb 0 with
        | some bi => _
        | none => ballocIntFrom size m n (b + .ofNat 32 bpb) : V Nat) (farFree m) = _
      rw [hnone]
      exact ih _
    · rfl

/-! ## Small disks -/

/-- The bitmap of a disk of six blocks, with the marks in its first byte. -/
def smallBitmap (marks : UInt8) : Vol :=
  { farFree 0 with block := fun _ i => if i.val = 0 then marks else 0 }

theorem balloc_exact_small : ∃ a t, ballocInt 6 2 (smallBitmap 7) = .ok a t ∧ a ≠ 0 := by
  obtain ⟨⟨a, t, hok, -, hzero⟩, -⟩ :=
    balloc_exact smallLayout (smallBitmap 7) rfl (by decide) (by decide)
  exact ⟨a, t, hok, fun ha => absurd (hzero.mp ha 3 (by decide)) (by decide)⟩

/-- With the bitmap's own block unmarked, `balloc` allocates it and clears it, with the mark that it
has just set; on more than 2³¹ blocks, it can return 0 though blocks are free. -/
theorem balloc_not_exact :
    ((smallBitmap 3).inOp = true ∧ smallLayout.bit (smallBitmap 3).block 0 = true ∧
      ¬Precise smallLayout (smallBitmap 3)) ∧
    ∀ size m, m < 2 ^ 31 → 2 ^ 31 < size → ∃ s : Vol, s.inOp = true ∧
      (∀ c < 2 ^ 31, Bytes.bit (s.block (c / bpb + m)) (c % bpb) = true) ∧
      Bytes.bit (s.block (2 ^ 31 / bpb + m)) (2 ^ 31 % bpb) = false ∧
      ballocInt size m s = .ok 0 s := by
  constructor
  · have hset : ∀ c < 2, smallLayout.bit (smallBitmap 3).block c = true := by decide
    refine ⟨rfl, hset 0 (by decide), fun h => ?_⟩
    have hfirst : First smallLayout (smallBitmap 3).block 2 := ⟨by decide, by decide, hset⟩
    have hlost := (precise_iff rfl).mp h 2 hfirst 0 (by decide) (by decide)
    exact absurd (hset 0 (by decide)) (by simp [hlost.2])
  · intro size m hm hsize
    have hbpb : bpb = 8192 := rfl
    refine ⟨farFree m, rfl, fun c hc => ?_, ?_, ballocInt_far hm⟩
    · have hblock : (farFree m).block (c / bpb + m) = fun _ => 255 :=
        if_neg (by rw [hbpb]; omega)
      rw [hblock, bit_ones (Nat.mod_lt c (by decide))]
    · have hblock : (farFree m).block (2 ^ 31 / bpb + m) = fun _ => 0 :=
        if_pos (by rw [hbpb]; omega)
      rw [hblock, bit_zero]

end Vol

end Xv6.Fs
