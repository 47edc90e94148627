import Mathlib.Data.Nat.Basic
import Mathlib.Tactic.Ring

/-!
# Numbers in arrays of bytes

`Bytes n` is an array of `n` bytes.  `b.read off k` is the number whose `k` bytes, least significant
first, start at `off`, and `b.write off k v` stores one there.  A number that is read back where it
was written comes out reduced modulo `256 ^ k` (`read_write`), and a write does not disturb what is
read elsewhere (`read_write_of_disjoint`).  So for the fields of a record (`writes`), a copy of some
bytes (`splice`), and single bits.
-/

abbrev Bytes (n : Nat) : Type := Fin n → UInt8

namespace Bytes

variable {n : Nat}

/-- The byte at an offset, zero beyond the end. -/
def byte (b : Bytes n) (i : Nat) : UInt8 := if h : i < n then b ⟨i, h⟩ else 0

/-- The number in the `k` bytes at `off`, least significant byte first. -/
def read (b : Bytes n) (off : Nat) : Nat → Nat
  | 0 => 0
  | k + 1 => (b.byte off).toNat + 256 * read b (off + 1) k

/-- Store a number in the `k` bytes at `off`, least significant byte first. -/
def write (b : Bytes n) (off k v : Nat) : Bytes n := fun i =>
  if off ≤ i.val ∧ i.val < off + k then UInt8.ofNat (v / 256 ^ (i.val - off)) else b i

variable {base i j k k' m off off' v : Nat}

theorem byte_write_of_mem {b : Bytes n} (hn : i < n) (hi : off ≤ i)
    (hi' : i < off + k) : (b.write off k v).byte i = UInt8.ofNat (v / 256 ^ (i - off)) := by
  rw [byte, dif_pos hn, write, if_pos ⟨hi, hi'⟩]

theorem byte_write_of_not_mem {b : Bytes n} (hi : i < off ∨ off + k ≤ i) :
    (b.write off k v).byte i = b.byte i := by
  rw [byte, byte]
  split
  · rw [write, if_neg (by dsimp only; omega)]
  · rfl

theorem read_congr {b c : Bytes n}
    (h : ∀ i, off ≤ i → i < off + k → b.byte i = c.byte i) : b.read off k = c.read off k := by
  induction k generalizing off with
  | zero => rfl
  | succ k ih =>
    rw [read, read, h off le_rfl (by omega), ih fun i hi hi' => h i (by omega) (by omega)]

theorem read_write_of_disjoint {b : Bytes n}
    (h : off' + k' ≤ off ∨ off + k ≤ off') : (b.write off k v).read off' k' = b.read off' k' :=
  read_congr fun _ _ _ => byte_write_of_not_mem (by omega)

theorem read_lt (b : Bytes n) (off k : Nat) : b.read off k < 256 ^ k := by
  induction k generalizing off with
  | zero => simp [read]
  | succ k ih =>
    have hbyte := (b.byte off).toNat_lt
    have hrest := ih (off + 1)
    rw [read, pow_succ]
    omega

theorem read_write {b : Bytes n} (h : off + k ≤ n) :
    (b.write off k v).read off k = v % 256 ^ k := by
  -- read the last `j` bytes of the field, by induction on `j`
  have key : ∀ j, j ≤ k →
      (b.write off k v).read (off + (k - j)) j = v / 256 ^ (k - j) % 256 ^ j := by
    intro j
    induction j with
    | zero => intro _; simp [read, Nat.mod_one]
    | succ j ih =>
      intro hj
      have hpos : off + (k - (j + 1)) + 1 = off + (k - j) := by omega
      have hexp : off + (k - (j + 1)) - off = k - (j + 1) := by omega
      have hdiv : v / 256 ^ (k - j) = v / 256 ^ (k - (j + 1)) / 256 := by
        rw [Nat.div_div_eq_div_mul, ← pow_succ, show k - (j + 1) + 1 = k - j by omega]
      have hpow : 256 ^ (j + 1) = 256 * 256 ^ j := pow_succ' ..
      rw [read, hpos, ih (by omega), byte_write_of_mem (by omega) (by omega) (by omega), hexp, hdiv,
        UInt8.toNat_ofNat', hpow, Nat.mod_mul]
  simpa using key k le_rfl

/-! ## Records -/

/-- Where a field of a record begins, and how long it is. -/
structure Field where
  off : Nat
  len : Nat

def Field.Apart (f g : Field) : Prop := f.off + f.len ≤ g.off ∨ g.off + g.len ≤ f.off

instance (f g : Field) : Decidable (f.Apart g) := inferInstanceAs (Decidable (_ ∨ _))

/-- Store the fields of a record that begins at `base`. -/
def writes (b : Bytes n) (base : Nat) : List (Field × Nat) → Bytes n
  | [] => b
  | x :: l => (b.writes base l).write (base + x.1.off) x.1.len x.2

theorem read_writes_of_disjoint {b : Bytes n} {l : List (Field × Nat)}
    (h : ∀ x ∈ l, off + k ≤ base + x.1.off ∨ base + x.1.off + x.1.len ≤ off) :
    (b.writes base l).read off k = b.read off k := by
  induction l with
  | nil => rfl
  | cons x l ih =>
    rw [writes, read_write_of_disjoint (h x List.mem_cons_self),
      ih fun y hy => h y (List.mem_cons_of_mem x hy)]

theorem read_writes {b : Bytes n} {l : List (Field × Nat)} {x : Field × Nat}
    (hl : (l.map (·.1)).Pairwise Field.Apart) (hx : x ∈ l) (hn : base + x.1.off + x.1.len ≤ n) :
    (b.writes base l).read (base + x.1.off) x.1.len = x.2 % 256 ^ x.1.len := by
  induction l with
  | nil => exact absurd hx (by simp)
  | cons y l ih =>
    rw [List.map_cons, List.pairwise_cons] at hl
    rcases List.mem_cons.mp hx with rfl | hx
    · exact read_write hn
    · have hapart : y.1.Apart x.1 := hl.1 x.1 (List.mem_map_of_mem hx)
      rw [Field.Apart] at hapart
      rw [writes, read_write_of_disjoint (by omega), ih hl.2 hx]

/-! ## Copies -/

/-- Copy `m` bytes of `src` to the offset `off`. -/
def splice (b : Bytes n) (off m : Nat) (src : Nat → UInt8) : Bytes n := fun i =>
  if off ≤ i.val ∧ i.val < off + m then src (i.val - off) else b i

theorem byte_splice_of_mem {b : Bytes n} {src : Nat → UInt8} (hn : i < n)
    (hi : off ≤ i) (hi' : i < off + m) : (b.splice off m src).byte i = src (i - off) := by
  rw [byte, dif_pos hn, splice, if_pos ⟨hi, hi'⟩]

theorem byte_splice_of_not_mem {b : Bytes n} {src : Nat → UInt8}
    (hi : i < off ∨ off + m ≤ i) : (b.splice off m src).byte i = b.byte i := by
  rw [byte, byte]
  split
  · rw [splice, if_neg (by dsimp only; omega)]
  · rfl

/-! ## Bits -/

def mask (k : Nat) : UInt8 := 1 <<< UInt8.ofNat (k % 8)

def bit (b : Bytes n) (k : Nat) : Bool := b.byte (k / 8) &&& mask k ≠ 0

def setBit (b : Bytes n) (k : Nat) : Bytes n := fun i => if i.val = k / 8 then b i ||| mask k else b i

def clearBit (b : Bytes n) (k : Nat) : Bytes n := fun i =>
  if i.val = k / 8 then b i &&& ~~~mask k else b i

theorem toBitVec_mask (k : Nat) : (mask k).toBitVec = BitVec.twoPow 8 (k % 8) := by
  have h : ∀ j < 8, ((1 : UInt8) <<< UInt8.ofNat j).toBitVec = BitVec.twoPow 8 j := by decide
  exact h _ (Nat.mod_lt k (by decide))

theorem bit_eq (b : Bytes n) (k : Nat) :
    b.bit k = (b.byte (k / 8)).toBitVec.getLsbD (k % 8) := by
  have hk : k % 8 < 8 := Nat.mod_lt k (by decide)
  have htwo : BitVec.twoPow 8 (k % 8) ≠ 0#8 := by
    intro h
    have := congrArg (BitVec.getLsbD · (k % 8)) h
    simp [hk] at this
  have hand : (b.byte (k / 8) &&& mask k).toBitVec =
      if (b.byte (k / 8)).toBitVec.getLsbD (k % 8) then BitVec.twoPow 8 (k % 8) else 0#8 := by
    rw [UInt8.toBitVec_and, toBitVec_mask, BitVec.and_twoPow]
  have hzero : b.byte (k / 8) &&& mask k = 0 ↔ (b.byte (k / 8) &&& mask k).toBitVec = 0#8 :=
    UInt8.toBitVec_inj.symm
  rw [bit, Bool.eq_iff_iff, decide_eq_true_iff, Ne, hzero, hand]
  split
  · rename_i h
    exact iff_of_true htwo h
  · rename_i h
    exact iff_of_false (fun hne => hne rfl) h

theorem mod_ne_of_div_eq (hjk : j ≠ k) (h : j / 8 = k / 8) : j % 8 ≠ k % 8 := by
  omega

theorem byte_setBit {b : Bytes n} (hi : i < n) :
    (b.setBit k).byte i = if i = k / 8 then b.byte i ||| mask k else b.byte i := by
  rw [byte, byte, dif_pos hi, dif_pos hi, setBit]

theorem byte_clearBit {b : Bytes n} (hi : i < n) :
    (b.clearBit k).byte i = if i = k / 8 then b.byte i &&& ~~~mask k else b.byte i := by
  rw [byte, byte, dif_pos hi, dif_pos hi, clearBit]

theorem bit_setBit {b : Bytes n} (hj : j / 8 < n) :
    (b.setBit k).bit j = (decide (j = k) || b.bit j) := by
  have hlt : j % 8 < 8 := Nat.mod_lt j (by decide)
  rw [bit_eq, bit_eq, byte_setBit hj]
  by_cases hjk : j = k
  · subst hjk
    rw [if_pos rfl, UInt8.toBitVec_or, toBitVec_mask, BitVec.getLsbD_or, BitVec.getLsbD_twoPow]
    simp [hlt]
  · split
    · rename_i hdiv
      rw [UInt8.toBitVec_or, toBitVec_mask, BitVec.getLsbD_or, BitVec.getLsbD_twoPow]
      simp [hjk, (mod_ne_of_div_eq hjk hdiv).symm]
    · simp [hjk]

theorem bit_clearBit {b : Bytes n} (hj : j / 8 < n) :
    (b.clearBit k).bit j = (decide (j ≠ k) && b.bit j) := by
  have hlt : j % 8 < 8 := Nat.mod_lt j (by decide)
  rw [bit_eq, bit_eq, byte_clearBit hj]
  by_cases hjk : j = k
  · subst hjk
    rw [if_pos rfl, UInt8.toBitVec_and, UInt8.toBitVec_not, toBitVec_mask, BitVec.getLsbD_and,
      BitVec.getLsbD_not, BitVec.getLsbD_twoPow]
    simp
  · split
    · rename_i hdiv
      rw [UInt8.toBitVec_and, UInt8.toBitVec_not, toBitVec_mask, BitVec.getLsbD_and,
        BitVec.getLsbD_not, BitVec.getLsbD_twoPow]
      simp [hjk, hlt, (mod_ne_of_div_eq hjk hdiv).symm]
    · simp [hjk]

end Bytes
