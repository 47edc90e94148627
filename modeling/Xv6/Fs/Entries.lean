import Xv6.Fs.FileArray

/-!
# The contents of a directory

A directory is a file of 16-byte entries: an inode number of two bytes, zero if the entry is empty,
and a name of up to `DIRSIZ` bytes, which ends with a zero if it is shorter.  Names are compared with
`strncmp`, so what counts is the `key` of a name: its first `DIRSIZ` bytes, up to a zero.
With different keys in different entries the directory is a finite map from keys to inodes (`lookup`).
-/

namespace Xv6.Fs

/-! ## Keys -/

/-- What counts of a name: its first `DIRSIZ` bytes, up to a zero. -/
def key (f : Nat → UInt8) : List UInt8 := ((List.range dirsiz).map f).takeWhile (· ≠ 0)

def nameKey (name : Name) : List UInt8 := key (Vol.nameByte name)

theorem strncmp_eq_true {s t : Nat → UInt8} {n k : Nat} : Vol.strncmp s t n k = true ↔
    ((List.range' k n).map s).takeWhile (· ≠ 0) = ((List.range' k n).map t).takeWhile (· ≠ 0) := by
  induction n generalizing k with
  | zero => simp [Vol.strncmp]
  | succ n ih =>
    rw [Vol.strncmp, List.range'_succ, List.map_cons, List.map_cons, List.takeWhile_cons,
      List.takeWhile_cons]
    by_cases hst : s k = t k
    · by_cases hs : s k = 0
      · simp [hs, ← hst]
      · rw [if_pos ⟨hs, hst⟩, ih, ← hst]
        simp [hs]
    · rw [if_neg fun h => hst h.2]
      by_cases hs : s k = 0 <;> by_cases ht : t k = 0 <;> simp_all

theorem strncmp_iff_key {s t : Nat → UInt8} :
    Vol.strncmp s t dirsiz 0 = true ↔ key s = key t := by
  rw [strncmp_eq_true, ← List.range_eq_range']
  rfl

theorem key_congr {f g : Nat → UInt8} (h : ∀ k < dirsiz, f k = g k) : key f = key g := by
  rw [key, key, List.map_congr_left fun k hk => h k (List.mem_range.mp hk)]

variable {name name' : Name}

theorem nameKey_of_take (h : name.take dirsiz = name'.take dirsiz) :
    nameKey name = nameKey name' := by
  have hget : ∀ (name : Name), ∀ k < dirsiz,
      Vol.nameByte name k = Vol.nameByte (name.take dirsiz) k := by
    intro name k hk
    rw [Vol.nameByte, Vol.nameByte, List.map_take, List.getD_eq_getElem?_getD,
      List.getD_eq_getElem?_getD, List.getElem?_take_of_lt hk]
  refine key_congr fun k hk => ?_
  rw [hget name k hk, hget name' k hk, h]

/-- The bytes of a C string, one for each character. -/
def CString (name : List Char) : Prop := ∀ c ∈ name, 0 < c.toNat ∧ c.toNat < 256

instance (name : List Char) : Decidable (CString name) :=
  List.decidableBAll (fun c : Char => 0 < c.toNat ∧ c.toNat < 256) name

theorem skipelem_spec {path rest : List Char}
    (h : skipelem path = some (name, rest)) :
    name.length ≤ dirsiz ∧ (∀ c ∈ name, c ∈ path) ∧ ∀ c ∈ rest, c ∈ path := by
  unfold skipelem at h
  split at h
  · exact absurd h (by simp)
  · rename_i c s hs
    rw [Option.some.injEq, Prod.mk.injEq] at h
    obtain ⟨rfl, rfl⟩ := h
    have hsub : (c :: s).Sublist path := hs ▸ List.dropWhile_sublist _
    refine ⟨List.length_take_le .., fun d hd => ?_, fun d hd => ?_⟩
    · exact hsub.subset ((List.takeWhile_sublist _).subset (List.mem_of_mem_take hd))
    · exact hsub.subset
        (((List.dropWhile_sublist _).trans (List.dropWhile_sublist _)).subset hd)

theorem elems_spec {path : List Char} (h : CString path)
    (hname : name ∈ elems path) : CString name ∧ name.length ≤ dirsiz := by
  have haux : ∀ n path, CString path → name ∈ elemsAux n path →
      CString name ∧ name.length ≤ dirsiz := by
    intro n
    induction n with
    | zero => simp [elemsAux]
    | succ n ih =>
      intro path h hmem
      rw [elemsAux] at hmem
      split at hmem
      · exact absurd hmem (by simp)
      · rename_i first rest hskip
        obtain ⟨hlen, hfirst, hrest⟩ := skipelem_spec hskip
        rcases List.mem_cons.mp hmem with rfl | hmem
        · exact ⟨fun c hc => h c (hfirst c hc), hlen⟩
        · exact ih rest (fun c hc => h c (hrest c hc)) hmem
  exact haux _ path h hname

theorem nameKey_eq (h : CString name) (hlen : name.length ≤ dirsiz) :
    nameKey name = name.map fun c => UInt8.ofNat c.toNat := by
  have hbyte : ∀ c ∈ name, UInt8.ofNat c.toNat ≠ 0 := by
    intro c hc h0
    have := congrArg UInt8.toNat h0
    rw [UInt8.toNat_ofNat_of_lt' (h c hc).2] at this
    exact absurd this (Nat.ne_of_gt (h c hc).1)
  have hsplit : (List.range dirsiz).map (Vol.nameByte name) =
      (name.map fun c => UInt8.ofNat c.toNat) ++ List.replicate (dirsiz - name.length) 0 := by
    refine List.ext_getElem (by simp; omega) fun k hk _ => ?_
    rw [List.getElem_map, List.getElem_range, Vol.nameByte, List.getD_eq_getElem?_getD,
      List.getElem?_map]
    by_cases hkn : k < name.length
    · rw [List.getElem_append_left (by simpa using hkn), List.getElem_map,
        List.getElem?_eq_getElem hkn]
      rfl
    · rw [List.getElem_append_right (by simpa using hkn), List.getElem?_eq_none (by omega)]
      simp
  rw [nameKey, key, hsplit, List.takeWhile_append_of_pos]
  · cases dirsiz - name.length with
    | zero => simp
    | succ n => simp [List.replicate_succ]
  · intro b hb
    obtain ⟨c, hc, rfl⟩ := List.mem_map.mp hb
    simpa using hbyte c hc

theorem nameKey_inj (h : CString name) (h' : CString name')
    (hlen : name.length ≤ dirsiz) (hlen' : name'.length ≤ dirsiz)
    (heq : nameKey name = nameKey name') : name = name' := by
  rw [nameKey_eq h hlen, nameKey_eq h' hlen'] at heq
  have hlength : name.length = name'.length := by simpa using congrArg List.length heq
  refine List.ext_getElem hlength fun k hk hk' => ?_
  have hget : UInt8.ofNat name[k].toNat = UInt8.ofNat name'[k].toNat := by
    have := List.getElem_of_eq heq (i := k) (by simpa using hk)
    simpa using this
  have hnat := congrArg UInt8.toNat hget
  rw [UInt8.toNat_ofNat_of_lt' (h _ (List.getElem_mem hk)).2,
    UInt8.toNat_ofNat_of_lt' (h' _ (List.getElem_mem hk')).2] at hnat
  exact Char.toNat_inj.mp hnat

/-! ## Entries -/

def inumAt (data : List UInt8) (k : Nat) : Nat :=
  (data.getD (16 * k) 0).toNat + 256 * (data.getD (16 * k + 1) 0).toNat

def keyAt (data : List UInt8) (k : Nat) : List UInt8 := key fun j => data.getD (16 * k + 2 + j) 0

/-- Entry `k` names the inode `i`. -/
structure Entry (data : List UInt8) (k i : Nat) (κ : List UInt8) : Prop where
  lt : 16 * k < data.length
  inum : inumAt data k = i
  ne_zero : i ≠ 0
  key : keyAt data k = κ

def Distinct (data : List UInt8) : Prop :=
  ∀ j k i i' κ, Entry data j i κ → Entry data k i' κ → j = k

/-- The entry that `dirlookup` finds. -/
def find (data : List UInt8) (κ : List UInt8) : Option Nat :=
  (List.range (data.length / 16)).find? fun k => inumAt data k ≠ 0 ∧ keyAt data k = κ

def lookup (data : List UInt8) (κ : List UInt8) : Option Nat := (find data κ).map (inumAt data)

/-- The entry that `dirlink` writes: the first empty one, or one more. -/
def emptySlot (data : List UInt8) : Nat :=
  ((List.range (data.length / 16)).find? fun k => inumAt data k = 0).getD (data.length / 16)

section Lookup

variable {data : List UInt8} {k i : Nat} {κ : List UInt8}

theorem find_eq_some (hsize : data.length % 16 = 0) (h : find data κ = some k) :
    Entry data k (inumAt data k) κ := by
  have hp := List.find?_some h
  have hk := List.mem_range.mp (List.mem_of_find?_eq_some h)
  rw [decide_eq_true_iff] at hp
  exact ⟨by omega, rfl, hp.1, hp.2⟩

theorem find_eq_none (hsize : data.length % 16 = 0) (h : find data κ = none) :
    ¬Entry data k i κ := by
  rintro ⟨hlt, rfl, hne, hkey⟩
  rw [find, List.find?_eq_none] at h
  exact absurd (h k (List.mem_range.mpr (by omega))) (by simp [hne, hkey])

theorem lookup_eq_none (hsize : data.length % 16 = 0) :
    lookup data κ = none ↔ ∀ k i, ¬Entry data k i κ := by
  rw [lookup, Option.map_eq_none_iff]
  refine ⟨fun h k i => find_eq_none hsize h, fun h => ?_⟩
  cases hf : find data κ with
  | none => rfl
  | some k => exact absurd (find_eq_some hsize hf) (h k _)

theorem lookup_eq_some (hsize : data.length % 16 = 0) (hd : Distinct data) :
    lookup data κ = some i ↔ ∃ k, Entry data k i κ := by
  rw [lookup, Option.map_eq_some_iff]
  constructor
  · rintro ⟨k, hk, rfl⟩
    exact ⟨k, find_eq_some hsize hk⟩
  · rintro ⟨k, hk⟩
    cases hf : find data κ with
    | none => exact absurd hk (find_eq_none hsize hf)
    | some j =>
      obtain rfl := hd j k _ _ _ (find_eq_some hsize hf) hk
      exact ⟨j, rfl, hk.inum⟩

theorem emptySlot_le (data : List UInt8) : emptySlot data ≤ data.length / 16 := by
  rw [emptySlot]
  cases hf : (List.range (data.length / 16)).find? fun k => inumAt data k = 0 with
  | none => exact Nat.le_refl _
  | some k => exact Nat.le_of_lt (List.mem_range.mp (List.mem_of_find?_eq_some hf))

theorem inumAt_emptySlot (h : emptySlot data < data.length / 16) :
    inumAt data (emptySlot data) = 0 := by
  rw [emptySlot] at h ⊢
  cases hf : (List.range (data.length / 16)).find? fun k => inumAt data k = 0 with
  | none =>
    rw [hf] at h
    exact absurd h (Nat.lt_irrefl _)
  | some k => simpa using List.find?_some hf

end Lookup

/-! ## Writing an entry -/

section Put

variable {data e : List UInt8} {j k i : Nat} {κ κ' : List UInt8}

section

variable (he : e.length = 16) (hk : 16 * k ≤ data.length)
include he hk

theorem getD_overlay_of_lt {l : Nat} (hl : l < 16) :
    (overlay data (16 * k) e).getD (16 * k + l) 0 = e.getD l 0 := by
  rw [List.getD_eq_getElem?_getD, getElem?_overlay hk, if_pos ⟨by omega, by omega⟩,
    Nat.add_sub_cancel_left, List.getD_eq_getElem?_getD]

theorem getD_overlay_of_ne (hjk : j ≠ k) {l : Nat}
    (hl : l < 16) : (overlay data (16 * k) e).getD (16 * j + l) 0 = data.getD (16 * j + l) 0 := by
  rw [List.getD_eq_getElem?_getD, getElem?_overlay hk, if_neg (by omega),
    List.getD_eq_getElem?_getD]

theorem inumAt_put :
    inumAt (overlay data (16 * k) e) j = if j = k then inumAt e 0 else inumAt data j := by
  split
  · rename_i hjk
    have h0 := getD_overlay_of_lt (l := 0) he hk (by decide)
    have h1 := getD_overlay_of_lt (l := 1) he hk (by decide)
    rw [Nat.add_zero] at h0
    rw [hjk, inumAt, h0, h1]
    rfl
  · rename_i hjk
    have h0 := getD_overlay_of_ne (l := 0) he hk hjk (by decide)
    have h1 := getD_overlay_of_ne (l := 1) he hk hjk (by decide)
    rw [Nat.add_zero] at h0
    rw [inumAt, h0, h1]
    rfl

theorem keyAt_put :
    keyAt (overlay data (16 * k) e) j = if j = k then keyAt e 0 else keyAt data j := by
  split
  · rename_i hjk
    rw [hjk]
    refine key_congr fun l hl => ?_
    rw [Nat.add_assoc, getD_overlay_of_lt he hk (by simp only [dirsiz] at hl; omega)]
  · rename_i hjk
    refine key_congr fun l hl => ?_
    rw [Nat.add_assoc, getD_overlay_of_ne he hk hjk (by simp only [dirsiz] at hl; omega)]

theorem length_put : (overlay data (16 * k) e).length = max data.length (16 * k + 16) := by
  rw [length_overlay hk, he]

end

theorem size_put (hsize : data.length % 16 = 0) (he : e.length = 16) (hk : 16 * k ≤ data.length) :
    (overlay data (16 * k) e).length % 16 = 0 := by
  rw [length_put he hk]
  omega

theorem entry_put (hsize : data.length % 16 = 0) (he : e.length = 16) (hk : 16 * k ≤ data.length) :
    Entry (overlay data (16 * k) e) j i κ ↔
      if j = k then Entry e 0 i κ else Entry data j i κ := by
  have hlen := length_put he hk
  constructor
  · rintro ⟨hlt, hinum, hne, hkey⟩
    rw [inumAt_put he hk] at hinum
    rw [keyAt_put he hk] at hkey
    split
    · rename_i hjk
      rw [if_pos hjk] at hinum hkey
      exact ⟨by omega, hinum, hne, hkey⟩
    · rename_i hjk
      rw [if_neg hjk] at hinum hkey
      exact ⟨by omega, hinum, hne, hkey⟩
  · intro h
    split at h
    · rename_i hjk
      refine ⟨by omega, ?_, h.ne_zero, ?_⟩
      · rw [inumAt_put he hk, if_pos hjk, h.inum]
      · rw [keyAt_put he hk, if_pos hjk, h.key]
    · rename_i hjk
      refine ⟨by have := h.lt; omega, ?_, h.ne_zero, ?_⟩
      · rw [inumAt_put he hk, if_neg hjk, h.inum]
      · rw [keyAt_put he hk, if_neg hjk, h.key]

theorem entry_zero_iff (he : e.length = 16) :
    Entry e 0 i κ ↔ inumAt e 0 = i ∧ i ≠ 0 ∧ keyAt e 0 = κ :=
  ⟨fun h => ⟨h.inum, h.ne_zero, h.key⟩, fun h => ⟨by omega, h.1, h.2.1, h.2.2⟩⟩

variable (hsize : data.length % 16 = 0) (hd : Distinct data) (he : e.length = 16)
include hsize hd he

theorem distinct_put (hk : 16 * k ≤ data.length) (hnew : lookup data (keyAt e 0) = none) :
    Distinct (overlay data (16 * k) e) := by
  rw [lookup_eq_none hsize] at hnew
  intro a b i i' κ ha hb
  rw [entry_put hsize he hk] at ha hb
  by_cases hak : a = k <;> by_cases hbk : b = k
  · rw [hak, hbk]
  · rw [if_pos hak] at ha
    rw [if_neg hbk, ← ha.key] at hb
    exact absurd hb (hnew b i')
  · rw [if_pos hbk] at hb
    rw [if_neg hak, ← hb.key] at ha
    exact absurd ha (hnew a i)
  · rw [if_neg hak] at ha
    rw [if_neg hbk] at hb
    exact hd a b i i' κ ha hb

theorem distinct_clear (hk : 16 * k ≤ data.length) (h0 : inumAt e 0 = 0) : Distinct
    (overlay data (16 * k) e) := by
  have hne : ∀ {i κ}, ¬Entry e 0 i κ := fun h => h.ne_zero (h.inum.symm.trans h0)
  intro a b i i' κ ha hb
  rw [entry_put hsize he hk] at ha hb
  split at ha
  · exact absurd ha hne
  split at hb
  · exact absurd hb hne
  exact hd a b i i' κ ha hb

/-- **A new entry in an empty place** adds its key to the map. -/
theorem lookup_put (hk : 16 * k ≤ data.length) (hempty : 16 * k < data.length → inumAt data k = 0)
    (hnew : lookup data (keyAt e 0) = none) (hi : inumAt e 0 ≠ 0) (κ : List UInt8) :
    lookup (overlay data (16 * k) e) κ =
      if κ = keyAt e 0 then some (inumAt e 0) else lookup data κ := by
  have hsize' := size_put hsize he hk
  have hd' := distinct_put hsize hd he hk hnew
  split
  · rename_i hκ
    rw [lookup_eq_some hsize' hd']
    exact ⟨k, (entry_put hsize he hk).mpr
      (by rw [if_pos rfl, entry_zero_iff he]; exact ⟨rfl, hi, hκ.symm⟩)⟩
  · rename_i hκ
    refine Option.ext fun i => ?_
    rw [lookup_eq_some hsize' hd', lookup_eq_some hsize hd]
    refine exists_congr fun j => ?_
    rw [entry_put hsize he hk]
    split
    · rename_i hjk
      refine iff_of_false (fun h => hκ h.key.symm) fun h => h.ne_zero ?_
      rw [← h.inum, hjk]
      exact hempty (hjk ▸ h.lt)
    · rfl

/-- **Clearing an entry** removes its key from the map. -/
theorem lookup_clear (h0 : inumAt e 0 = 0) (hentry : Entry data k i κ) (κ' : List UInt8) :
    lookup (overlay data (16 * k) e) κ' = if κ' = κ then none else lookup data κ' := by
  have hk : 16 * k ≤ data.length := Nat.le_of_lt hentry.lt
  have hsize' := size_put hsize he hk
  have hd' := distinct_clear hsize hd he hk h0
  have hne : ∀ {i κ}, ¬Entry e 0 i κ := fun h => h.ne_zero (h.inum.symm.trans h0)
  split
  · rename_i hκ
    rw [lookup_eq_none hsize']
    intro j i' hj
    rw [entry_put hsize he hk] at hj
    split at hj
    · exact hne hj
    · rename_i hjk
      exact hjk (hd j k _ _ _ (hκ ▸ hj) hentry)
  · rename_i hκ
    refine Option.ext fun i' => ?_
    rw [lookup_eq_some hsize' hd', lookup_eq_some hsize hd]
    refine exists_congr fun j => ?_
    rw [entry_put hsize he hk]
    split
    · rename_i hjk
      refine iff_of_false hne fun h => hκ ?_
      rw [← h.key, hjk, hentry.key]
    · rfl

end Put

/-! ## Directories -/

structure IsDirData (i : Nat) (data : List UInt8) : Prop where
  size : data.length % 16 = 0
  dot : Entry data 0 i (nameKey dot)
  dotdot : ∃ p, Entry data 1 p (nameKey dotdot)
  distinct : Distinct data

section IsDirData

variable {data e : List UInt8} {k i : Nat} {κ : List UInt8}

theorem IsDirData.put (h : IsDirData i data) (he : e.length = 16) (hk : 16 * k ≤ data.length)
    (hempty : 16 * k < data.length → inumAt data k = 0)
    (hnew : lookup data (keyAt e 0) = none) : IsDirData i (overlay data (16 * k) e) := by
  have hk' : ∀ {j p κ}, Entry data j p κ → j ≠ k := by
    rintro j p κ hj rfl
    exact hj.ne_zero (hj.inum.symm.trans (hempty hj.lt))
  obtain ⟨p, hp⟩ := h.dotdot
  refine ⟨size_put h.size he hk, ?_, ⟨p, ?_⟩, distinct_put h.size h.distinct he hk hnew⟩
  · rw [entry_put h.size he hk, if_neg (hk' h.dot)]
    exact h.dot
  · rw [entry_put h.size he hk, if_neg (hk' hp)]
    exact hp

theorem IsDirData.clear (h : IsDirData i data) (he : e.length = 16) (h0 : inumAt e 0 = 0)
    (hk : 16 * k ≤ data.length) (hk2 : 2 ≤ k) : IsDirData i (overlay data (16 * k) e) := by
  obtain ⟨p, hp⟩ := h.dotdot
  refine ⟨size_put h.size he hk, ?_, ⟨p, ?_⟩, distinct_clear h.size h.distinct he hk h0⟩
  · rw [entry_put h.size he hk, if_neg (by omega)]
    exact h.dot
  · rw [entry_put h.size he hk, if_neg (by omega)]
    exact hp

theorem IsDirData.two_le (h : IsDirData i data) {p : Nat} (hk : Entry data k p κ)
    (hdot : κ ≠ nameKey Fs.dot) (hdotdot : κ ≠ nameKey Fs.dotdot) : 2 ≤ k := by
  obtain ⟨q, hq⟩ := h.dotdot
  rcases k with - | - | k
  · exact absurd (hk.key.symm.trans h.dot.key) hdot
  · exact absurd (hk.key.symm.trans hq.key) hdotdot
  · omega

end IsDirData

/-! ## The entry that `dirlink` writes -/

def entryBytes (name : Name) (inum : Nat) : List UInt8 := (List.range 16).map (Vol.dirent name inum)

def emptyBytes : List UInt8 := (List.range 16).map fun _ => 0

theorem length_entryBytes (name : Name) (inum : Nat) : (entryBytes name inum).length = 16 := by
  simp [entryBytes]

theorem inumAt_entryBytes (name : Name) {inum : Nat} (h : inum < 2 ^ 16) :
    inumAt (entryBytes name inum) 0 = inum := by
  have h0 : Vol.dirent name inum 0 = .ofNat inum := rfl
  have h1 : Vol.dirent name inum 1 = .ofNat (inum / 256) := rfl
  show (Vol.dirent name inum 0).toNat + 256 * (Vol.dirent name inum 1).toNat = inum
  rw [h0, h1, UInt8.toNat_ofNat', UInt8.toNat_ofNat']
  omega

theorem keyAt_entryBytes (name : Name) (inum : Nat) :
    keyAt (entryBytes name inum) 0 = nameKey name := by
  refine key_congr fun k hk => ?_
  simp only [dirsiz] at hk
  rw [entryBytes, List.getD_eq_getElem?_getD, List.getElem?_map, List.getElem?_range (by omega)]
  show Vol.dirent name inum (16 * 0 + 2 + k) = Vol.nameByte name k
  rw [Vol.dirent, if_neg (by omega), if_neg (by omega)]
  congr 1
  omega

theorem entry_entryBytes (name : Name) {i : Nat} (hi : i < 2 ^ 16) (h0 : i ≠ 0) :
    Entry (entryBytes name i) 0 i (nameKey name) :=
  (entry_zero_iff (length_entryBytes name i)).mpr
    ⟨inumAt_entryBytes name hi, h0, keyAt_entryBytes name i⟩

theorem lookup_link {data : List UInt8} {i : Nat} (hsize : data.length % 16 = 0)
    (hd : Distinct data) (hnew : find data (nameKey name) = none) (hi : i < 2 ^ 16) (h0 : i ≠ 0)
    (κ : List UInt8) :
    lookup (overlay data (16 * emptySlot data) (entryBytes name i)) κ =
      if κ = nameKey name then some i else lookup data κ := by
  have hle := emptySlot_le data
  have hput := lookup_put hsize hd (length_entryBytes name i) (k := emptySlot data) (by omega)
    (fun hlt => inumAt_emptySlot (by omega))
    (by rw [keyAt_entryBytes, lookup, hnew]; rfl) (by rwa [inumAt_entryBytes name hi]) κ
  rwa [keyAt_entryBytes, inumAt_entryBytes name hi] at hput

theorem IsDirData.link {data : List UInt8} {i j : Nat} (h : IsDirData i data)
    (hnew : find data (nameKey name) = none) :
    IsDirData i (overlay data (16 * emptySlot data) (entryBytes name j)) := by
  have hle := emptySlot_le data
  have hsize := h.size
  refine h.put (length_entryBytes name j) (by omega) (fun hlt => inumAt_emptySlot (by omega)) ?_
  rw [keyAt_entryBytes, lookup, hnew]
  rfl

theorem isDirData_dots {data : List UInt8} {i p : Nat} (hi : i < 2 ^ 16) (hi0 : i ≠ 0)
    (hp : p < 2 ^ 16) (hp0 : p ≠ 0)
    (hdata : data = overlay [] (16 * emptySlot []) (entryBytes dot i))
    (hnew : find data (nameKey dotdot) = none) :
    IsDirData i (overlay data (16 * emptySlot data) (entryBytes dotdot p)) := by
  have he := length_entryBytes dot i
  have hentry : ∀ j q κ, Entry data j q κ ↔ j = 0 ∧ Entry (entryBytes dot i) 0 q κ := by
    intro j q κ
    have hput : Entry (overlay [] (16 * 0) (entryBytes dot i)) j q κ ↔
        if j = 0 then Entry (entryBytes dot i) 0 q κ else Entry [] j q κ :=
      entry_put rfl he (by simp)
    rw [hdata, show emptySlot [] = 0 from rfl, hput]
    split
    · simp [*]
    · rename_i hj
      exact iff_of_false (fun h => absurd h.lt (by simp)) fun h => hj h.1
  have hlen : data.length = 16 := by
    rw [hdata, show emptySlot [] = 0 from rfl, length_put he (by simp)]
    rfl
  have hdot : Entry data 0 i (nameKey dot) :=
    (hentry 0 i _).mpr ⟨rfl, entry_entryBytes dot hi hi0⟩
  have hslot : emptySlot data = 1 := by
    have hle := emptySlot_le data
    by_contra hne
    have h0 : emptySlot data = 0 := by omega
    have hempty : inumAt data (emptySlot data) = 0 := inumAt_emptySlot (by omega)
    rw [h0, hdot.inum] at hempty
    exact hi0 hempty
  have he' := length_entryBytes dotdot p
  have hsize : data.length % 16 = 0 := by omega
  have hk : 16 * 1 ≤ data.length := by omega
  rw [hslot]
  refine ⟨size_put hsize he' hk, ?_, ⟨p, ?_⟩, distinct_put hsize ?_ he' hk ?_⟩
  · rw [entry_put hsize he' hk, if_neg (by decide)]
    exact hdot
  · rw [entry_put hsize he' hk, if_pos rfl]
    exact entry_entryBytes dotdot hp hp0
  · intro a b q q' κ ha hb
    rw [((hentry a q κ).mp ha).1, ((hentry b q' κ).mp hb).1]
  · rw [keyAt_entryBytes, lookup, hnew]
    rfl

theorem length_emptyBytes : emptyBytes.length = 16 := rfl

theorem inumAt_emptyBytes : inumAt emptyBytes 0 = 0 := rfl

end Xv6.Fs
