import Mathlib.Data.Nat.Bitwise
import Mathlib.Tactic.Common

/-!
# Numbers in `printf`

`printf` of `kernel/printf.c` and `vprintf` of `user/printf.c`.  The two have their own copies of
`printint` and `printptr`, which differ in the digits, and they call them with other widths and signs
(`conversion_faithful_iff`).
-/

namespace Xv6.Printf

/-- What `va_arg` finds: a register, or a string (`none` is the null pointer). -/
inductive Arg where
  | word (v : BitVec 64)
  | str (s : Option (List UInt8))
  deriving DecidableEq, Repr

inductive Copy where
  | kernel
  | user
  deriving DecidableEq, Repr

def bytes (s : String) : List UInt8 := s.toList.map Char.toUInt8

def Copy.digits : Copy → List UInt8
  | .kernel => bytes "0123456789abcdef"
  | .user => bytes "0123456789ABCDEF"

def Copy.digit (k : Copy) (d : Nat) : UInt8 := k.digits.getD d 0

/-- The loop that stores the digits of `x` in `buf`, least significant first, with room for `room`
more bytes.  It is `none` when it stores behind the buffer. -/
def store (k : Copy) (base : Nat) : Nat → Nat → List UInt8 → Option (List UInt8)
  | 0, _, _ => none
  | room + 1, x, buf =>
    if x / base ≠ 0 then store k base room (x / base) (buf ++ [k.digit (x % base)])
    else some (buf ++ [k.digit (x % base)])

/-- `printint(xx, base, sign)`.  `x = -xx` is taken modulo 2³². -/
def printint (k : Copy) (xx : BitVec 32) (base : Nat) (sign : Bool) : Option (List UInt8) := do
  let neg := sign && xx.msb
  let buf ← store k base 16 (if neg then -xx else xx).toNat []
  if neg then
    -- `buf[i++] = '-'`
    if buf.length < 16 then some ((buf ++ bytes "-").reverse) else none
  else some buf.reverse

/-- The loop of `printptr`, with `n` digits to go. -/
def nibbles (k : Copy) : Nat → BitVec 64 → List UInt8
  | 0, _ => []
  | n + 1, x => k.digit (x >>> 60).toNat :: nibbles k n (x <<< 4)

def printptr (k : Copy) (x : BitVec 64) : List UInt8 := bytes "0x" ++ nibbles k 16 x

/-- `va_arg(ap, int)` and `va_arg(ap, uint64)` take a register. -/
def vaWord : List Arg → Option (BitVec 64 × List Arg)
  | .word v :: ap => some (v, ap)
  | _ => none

/-- `va_arg(ap, char*)`, with `(null)` for the null pointer. -/
def vaStr : List Arg → Option (List UInt8 × List Arg)
  | .str s :: ap => some (s.getD (bytes "(null)"), ap)
  | _ => none

/-- What is printed for a `%` followed by `c`, and the arguments that are left. -/
def convert (k : Copy) (c : UInt8) (ap : List Arg) : Option (List UInt8 × List Arg) :=
  if c = 'd'.toUInt8 then do
    let (v, ap) ← vaWord ap
    return (← printint k (v.setWidth 32) 10 true, ap)
  else if c = 'l'.toUInt8 ∧ k = .user then do
    let (v, ap) ← vaWord ap
    return (← printint k (v.setWidth 32) 10 false, ap)
  else if c = 'x'.toUInt8 then do
    let (v, ap) ← vaWord ap
    -- only the kernel's copy asks for a sign
    return (← printint k (v.setWidth 32) 16 (k == .kernel), ap)
  else if c = 'p'.toUInt8 then do
    let (v, ap) ← vaWord ap
    return (printptr k v, ap)
  else if c = 's'.toUInt8 then vaStr ap
  else if c = 'c'.toUInt8 ∧ k = .user then do
    let (v, ap) ← vaWord ap
    return ([UInt8.ofBitVec (v.setWidth 8)], ap)
  else if c = '%'.toUInt8 then some ([c], ap)
  else some ('%'.toUInt8 :: [c], ap)

/-- `printf(fmt, ...)` of the kernel and `vprintf(fd, fmt, ap)` of the library: what they print.  Both
print nothing for a `%` at the end. -/
def printf (k : Copy) : List UInt8 → List Arg → Option (List UInt8)
  | [], _ => some []
  | [c], _ => if c = '%'.toUInt8 then some [] else some [c]
  | c :: c' :: fmt, ap =>
    if c = '%'.toUInt8 then do
      let (out, ap) ← convert k c' ap
      return out ++ (← printf k fmt ap)
    else do return c :: (← printf k (c' :: fmt) ap)

/-! ## Reading a number back -/

def digitVal (c : UInt8) : Nat :=
  if c < 'A'.toUInt8 then c.toNat - 48 else if c < 'a'.toUInt8 then c.toNat - 55 else c.toNat - 87

def isDigit (base : Nat) (c : UInt8) : Bool :=
  (c ∈ Copy.kernel.digits.take base) || (c ∈ Copy.user.digits.take base)

/-- The number whose digits are given, least significant first. -/
def value (base : Nat) : List UInt8 → Nat
  | [] => 0
  | c :: cs => digitVal c + base * value base cs

def decodeNat (base : Nat) (text : List UInt8) : Option Nat :=
  if text ≠ [] ∧ text.all (isDigit base) then some (value base text.reverse) else none

def decode (base : Nat) (text : List UInt8) : Option Int :=
  if text.head? = some '-'.toUInt8 then (decodeNat base text.tail).map fun n : Nat => -(n : Int)
  else (decodeNat base text).map fun n : Nat => (n : Int)

inductive Conversion where
  | d
  | x
  | p
  | l
  deriving DecidableEq, Repr

def Conversion.letter : Conversion → UInt8
  | .d => 'd'.toUInt8
  | .x => 'x'.toUInt8
  | .p => 'p'.toUInt8
  | .l => 'l'.toUInt8

def Conversion.number (v : BitVec 64) : Conversion → Int
  | .d => (v.setWidth 32).toInt
  | .x => (v.setWidth 32).toNat
  | .p => v.toNat
  | .l => v.toNat

def Conversion.read (text : List UInt8) : Conversion → Option Int
  | .d => decode 10 text
  | .x => decode 16 text
  | .p => if bytes "0x" <+: text then decode 16 (text.drop 2) else none
  | .l => decode 10 text

/-- The conversion stays inside its buffer and prints its argument. -/
def Faithful (k : Copy) (c : Conversion) (v : BitVec 64) : Prop :=
  ∃ text, printf k ['%'.toUInt8, c.letter] [.word v] = some text ∧ c.read text = some (c.number v)

/-- The arguments that come out right.  There is no `%l` in the kernel. -/
def Kept (k : Copy) (c : Conversion) (v : BitVec 64) : Prop :=
  match k, c with
  | .kernel, .x => (v.setWidth 32).toNat < 2 ^ 31
  | .kernel, .l => False
  | .user, .l => v.toNat < 2 ^ 32
  | _, _ => True

/-! ## Digits -/

section Digits

variable {k : Copy} {base : Nat}

theorem digitVal_digit : ∀ (k : Copy), ∀ d < 16, digitVal (k.digit d) = d := by
  rintro (_ | _) <;> decide

theorem isDigit_digit (hb : base = 10 ∨ base = 16) :
    ∀ (k : Copy), ∀ d < base, isDigit base (k.digit d) = true := by
  rcases hb with rfl | rfl <;> rintro (_ | _) <;> decide

theorem decode_of_isDigit (hb : base = 10 ∨ base = 16) {ds : List UInt8} (hne : ds ≠ [])
    (hds : ∀ c ∈ ds, isDigit base c = true) :
    decodeNat base ds.reverse = some (value base ds) ∧
      decode base ds.reverse = some (value base ds : Int) := by
  have hnat : decodeNat base ds.reverse = some (value base ds) := by
    rw [decodeNat, if_pos ⟨by simpa using hne, by simpa using hds⟩, List.reverse_reverse]
  have hhead : ds.reverse.head? ≠ some '-'.toUInt8 := by
    intro h
    have hminus := hds _ (List.mem_reverse.mp (List.mem_of_head? h))
    rcases hb with rfl | rfl <;> exact absurd hminus (by decide)
  exact ⟨hnat, by rw [decode, if_neg hhead, hnat, Option.map_some]⟩

/-- The loop stores the digits of `x`, and no more of them than it takes.  The induction is on the room
in the buffer. -/
theorem store_eq (hb : base = 10 ∨ base = 16) {room n x : Nat} (buf : List UInt8)
    (hn : n + 1 ≤ room) (hx : x < base ^ (n + 1)) :
    ∃ ds, store k base room x buf = some (buf ++ ds) ∧ ds.length ≤ n + 1 ∧ ds ≠ [] ∧
      (∀ c ∈ ds, isDigit base c = true) ∧ value base ds = x := by
  have hpos : 0 < base := by omega
  induction room generalizing n x buf with
  | zero => omega
  | succ room ih =>
    have hmod := Nat.mod_lt x hpos
    have hdigit := isDigit_digit hb k _ hmod
    have hval := digitVal_digit k (x % base) (by omega)
    have hdiv := Nat.mod_add_div x base
    by_cases h0 : x / base = 0
    · refine ⟨[k.digit (x % base)], ?_, ?_, List.cons_ne_nil _ _, by simpa using hdigit, ?_⟩
      · rw [store, if_neg (not_not.mpr h0)]
      · exact Nat.le_add_left 1 n
      · rw [value, value, hval, ← h0, hdiv]
    · have hdivlt : x / base < base ^ n := Nat.div_lt_of_lt_mul (by rwa [← Nat.pow_succ'])
      obtain ⟨m, rfl⟩ : ∃ m, n = m + 1 := by
        refine Nat.exists_eq_succ_of_ne_zero fun hn0 => h0 ?_
        rw [hn0, Nat.pow_zero] at hdivlt
        exact Nat.lt_one_iff.mp hdivlt
      obtain ⟨ds, hstore, hlen, -, hds, hvalue⟩ :=
        ih (buf ++ [k.digit (x % base)]) (by omega) hdivlt
      refine ⟨k.digit (x % base) :: ds, ?_, ?_, List.cons_ne_nil _ _, ?_, ?_⟩
      · rw [store, if_pos h0, hstore, List.append_assoc, List.singleton_append]
      · rw [List.length_cons]
        omega
      · exact List.forall_mem_cons.mpr ⟨hdigit, hds⟩
      · rw [value, hval, hvalue, hdiv]

/-- `printint` prints the number in `x`, with a minus sign in front of it when `xx` is negative and
the sign is asked for. -/
theorem printint_eq (k : Copy) (hb : base = 10 ∨ base = 16) (xx : BitVec 32) (sign : Bool) :
    ∃ text, printint k xx base sign = some text ∧ decode base text =
      some (if (sign && xx.msb) = true then -((-xx).toNat : Int) else (xx.toNat : Int)) := by
  have hlt : ∀ x : BitVec 32, x.toNat < base ^ (9 + 1) := fun x =>
    x.isLt.trans_le (by rcases hb with rfl | rfl <;> decide)
  by_cases hneg : (sign && xx.msb) = true
  · obtain ⟨ds, hstore, hlen, hne, hds, hval⟩ :=
      store_eq (k := k) hb [] (show 9 + 1 ≤ 16 by decide) (hlt (-xx))
    have hroom : ds.length < 16 := by omega
    refine ⟨(ds ++ bytes "-").reverse, ?_, ?_⟩
    · simp only [printint, hneg, if_true, hstore, List.nil_append, Option.bind_eq_bind,
        Option.bind_some, hroom]
    · have hrev : (ds ++ bytes "-").reverse = '-'.toUInt8 :: ds.reverse := by
        rw [List.reverse_append]
        rfl
      rw [if_pos hneg, decode, hrev, List.head?_cons, if_pos rfl, List.tail_cons,
        (decode_of_isDigit hb hne hds).1, hval, Option.map_some]
  · obtain ⟨ds, hstore, -, hne, hds, hval⟩ :=
      store_eq (k := k) hb [] (show 9 + 1 ≤ 16 by decide) (hlt xx)
    refine ⟨ds.reverse, ?_, ?_⟩
    · simp only [printint, hneg, Bool.false_eq_true, if_false, hstore, List.nil_append,
        Option.bind_eq_bind, Option.bind_some]
    · rw [if_neg hneg, (decode_of_isDigit hb hne hds).2, hval]

/-! ## `printptr` -/

theorem value_concat (base : Nat) (ds : List UInt8) (c : UInt8) :
    value base (ds ++ [c]) = value base ds + base ^ ds.length * digitVal c := by
  induction ds with
  | nil => simp [value]
  | cons d ds ih =>
    rw [List.cons_append, value, ih, value, List.length_cons, Nat.pow_succ', Nat.mul_add,
      Nat.mul_assoc, Nat.add_assoc]

theorem length_nibbles (k : Copy) (n : Nat) (x : BitVec 64) : (nibbles k n x).length = n := by
  induction n generalizing x with
  | zero => rfl
  | succ n ih => rw [nibbles, List.length_cons, ih]

theorem isDigit_nibbles {n : Nat} {x : BitVec 64} : ∀ c ∈ nibbles k n x, isDigit 16 c = true := by
  induction n generalizing x with
  | zero => nofun
  | succ n ih =>
    have hd : (x >>> 60).toNat < 16 := by
      rw [BitVec.toNat_ushiftRight, Nat.shiftRight_eq_div_pow]
      omega
    exact List.forall_mem_cons.mpr ⟨isDigit_digit (.inr rfl) k _ hd, ih⟩

theorem value_nibbles (k : Copy) {n m : Nat} (hn : n + m = 16) (x : BitVec 64) :
    value 16 (nibbles k n x).reverse * 16 ^ m ≤ x.toNat ∧
      x.toNat < (value 16 (nibbles k n x).reverse + 1) * 16 ^ m := by
  induction n generalizing m x with
  | zero =>
    obtain rfl : m = 16 := by omega
    have := x.isLt
    simp only [nibbles, List.reverse_nil, value]
    omega
  | succ n ih =>
    have hd : (x >>> 60).toNat = x.toNat / 2 ^ 60 := by
      rw [BitVec.toNat_ushiftRight, Nat.shiftRight_eq_div_pow]
    have hx : (x <<< 4).toNat = x.toNat * 16 % 2 ^ 64 := by
      rw [BitVec.toNat_shiftLeft, Nat.shiftLeft_eq]
    have hpow : 16 ^ (m + 1) = 16 * 16 ^ m := Nat.pow_succ'
    have hlt := x.isLt
    obtain ⟨hlo, hhi⟩ := ih (m := m + 1) (by omega) (x <<< 4)
    have htop : 16 ^ n * 16 ^ m = 2 ^ 60 := by
      rw [← Nat.pow_add, show n + m = 15 by omega]
      decide
    rw [nibbles, List.reverse_cons, value_concat, List.length_reverse, length_nibbles, hd,
      digitVal_digit k _ (by omega)]
    generalize value 16 (nibbles k n (x <<< 4)).reverse = r at hlo hhi ⊢
    rw [hx, hpow] at hlo hhi
    have hmul : (r + 16 ^ n * (x.toNat / 2 ^ 60)) * 16 ^ m =
        r * 16 ^ m + 2 ^ 60 * (x.toNat / 2 ^ 60) := by
      rw [Nat.add_mul, Nat.mul_right_comm, htop]
    rw [Nat.add_mul _ 1, hmul, Nat.one_mul]
    rw [Nat.mul_left_comm] at hlo
    rw [Nat.mul_left_comm, Nat.add_mul, Nat.one_mul] at hhi
    generalize r * 16 ^ m = a at hlo hhi ⊢
    generalize 16 ^ m = b at hhi ⊢
    omega

theorem decode_printptr (k : Copy) (x : BitVec 64) :
    Conversion.p.read (printptr k x) = some (x.toNat : Int) := by
  obtain ⟨hlo, hhi⟩ := value_nibbles k (n := 16) (m := 0) rfl x
  have hne : (nibbles k 16 x).reverse ≠ [] := by
    rw [← List.length_pos_iff, List.length_reverse, length_nibbles]
    decide
  have hdec := (decode_of_isDigit (.inr rfl) hne fun c hc =>
    isDigit_nibbles c (List.mem_reverse.mp hc)).2
  rw [List.reverse_reverse] at hdec
  rw [Conversion.read, printptr, if_pos (List.prefix_append _ _)]
  show decode 16 (nibbles k 16 x) = _
  rw [hdec, Option.some_inj]
  omega

end Digits

theorem printf_conversion {k : Copy} {c : UInt8} {v : BitVec 64} {text : List UInt8}
    (h : convert k c [.word v] = some (text, [])) :
    printf k ['%'.toUInt8, c] [.word v] = some text := by
  simp [printf, h]

/-- So the conversion is faithful if and only if the text stands for the argument. -/
theorem faithful_iff_of_convert {k : Copy} {c : Conversion} {v : BitVec 64} {text : List UInt8}
    {n : Int} {P : Prop} (h : convert k c.letter [.word v] = some (text, []))
    (hread : c.read text = some n) (hP : n = c.number v ↔ P) :
    (printf k ['%'.toUInt8, c.letter] [.word v]).isSome = true ∧ (Faithful k c v ↔ P) := by
  have hprintf := printf_conversion h
  refine ⟨by rw [hprintf]; rfl, ?_⟩
  simp only [Faithful, hprintf, Option.some_inj, exists_eq_left', hread, hP]

/-- Every conversion stays inside the buffer, and it prints its argument if and only if the argument
is one of `Kept`. -/
theorem conversion_faithful_iff (k : Copy) (c : Conversion) (v : BitVec 64) :
    (printf k ['%'.toUInt8, c.letter] [.word v]).isSome = true ∧
      (Faithful k c v ↔ Kept k c v) := by
  have hconv {o : Option (List UInt8)} {text : List UInt8} (ho : o = some text) :
      o.bind (fun t => some (t, ([] : List Arg))) = some (text, []) := by
    rw [ho, Option.bind_some]
  have hmsb := BitVec.msb_eq_decide (v.setWidth 32)
  have hneg := BitVec.toNat_neg (v.setWidth 32)
  have hlt := (v.setWidth 32).isLt
  cases c with
  | d =>
    obtain ⟨text, hprint, hread⟩ := printint_eq k (.inl rfl) (v.setWidth 32) true
    refine faithful_iff_of_convert (hconv hprint) hread ?_
    have hint := BitVec.toInt_eq_toNat_cond (v.setWidth 32)
    refine iff_of_true ?_ (by cases k <;> trivial)
    rw [Bool.true_and, hmsb, hneg, Conversion.number, hint]
    simp only [decide_eq_true_eq]
    split <;> split <;> omega
  | x =>
    obtain ⟨text, hprint, hread⟩ := printint_eq k (.inr rfl) (v.setWidth 32) (k == .kernel)
    refine faithful_iff_of_convert (hconv hprint) hread ?_
    cases k with
    | kernel =>
      rw [beq_self_eq_true, Bool.true_and, hmsb, hneg, Conversion.number, Kept]
      simp only [decide_eq_true_eq]
      split <;> omega
    | user => exact iff_of_true rfl trivial
  | p =>
    refine faithful_iff_of_convert rfl (decode_printptr k v) ?_
    cases k <;> exact iff_of_true rfl trivial
  | l =>
    cases k with
    | kernel =>
      -- the letter is unknown there, and `%l` is printed
      have hprintf : printf .kernel ['%'.toUInt8, Conversion.l.letter] [.word v] =
          some (bytes "%l") := rfl
      refine ⟨by rw [hprintf]; rfl, iff_of_false ?_ id⟩
      rintro ⟨text, htext, hread⟩
      rw [hprintf, Option.some_inj] at htext
      subst htext
      exact absurd hread (by simp [Conversion.read, show decode 10 (bytes "%l") = none by decide])
    | user =>
      obtain ⟨text, hprint, hread⟩ := printint_eq .user (.inl rfl) (v.setWidth 32) false
      refine faithful_iff_of_convert (hconv hprint) hread ?_
      rw [Bool.false_and, if_neg Bool.false_ne_true, Conversion.number, Kept, BitVec.toNat_setWidth]
      omega

theorem not_faithful_of_eq {k : Copy} {c : Conversion} {v : BitVec 64} {text : List UInt8}
    (h : printf k ['%'.toUInt8, c.letter] [.word v] = some text)
    (hread : c.read text ≠ some (c.number v)) : ¬ Faithful k c v := by
  rintro ⟨t, ht, hr⟩
  rw [h, Option.some_inj] at ht
  exact hread (ht ▸ hr)

/-- The kernel's `%x` prints `-80000000` for 2³¹, and the library's `%l` prints `0` for 2³². -/
theorem conversion_unfaithful :
    ¬ Faithful .kernel .x 0x80000000#64 ∧ ¬ Faithful .user .l 0x100000000#64 :=
  ⟨not_faithful_of_eq (show _ = some (bytes "-80000000") by decide) (by decide),
    not_faithful_of_eq (show _ = some (bytes "0") by decide) (by decide)⟩

end Xv6.Printf
