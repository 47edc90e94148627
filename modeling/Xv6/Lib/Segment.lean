import Mathlib.Algebra.BigOperators.Group.List.Basic
import Mathlib.Algebra.GroupWithZero.Nat
import Mathlib.Data.List.Pairwise
import Mathlib.Order.Nat

/-!
# Lists of segments with gaps between them

A segment is a nonempty interval of natural numbers.  A list of segments is *spaced* if they are in
ascending order and no two overlap or touch.  `insert A b C` puts a segment into the gap between `A`
and `C`, and joins it with its neighbours where they touch.
-/

structure Seg where
  start : Nat
  len : Nat
  pos : 0 < len
  deriving DecidableEq

namespace Seg

open List (mem_cons_self)

def stop (a : Seg) : Nat := a.start + a.len

def Disjoint (a b : Seg) : Prop := a.stop ≤ b.start ∨ b.stop ≤ a.start

def join (a b : Seg) : Seg := ⟨a.start, a.len + b.len, Nat.add_pos_left a.pos _⟩

def Spaced (F : List Seg) : Prop := F.Pairwise fun a b => a.stop < b.start

def total (F : List Seg) : Nat := (F.map len).sum

variable {a b c x : Seg} {A C F : List Seg} {lo hi : Nat}

@[simp] theorem join_start (a b : Seg) : (a.join b).start = a.start := rfl

@[simp] theorem join_len (a b : Seg) : (a.join b).len = a.len + b.len := rfl

theorem start_lt_stop (a : Seg) : a.start < a.stop := Nat.lt_add_of_pos_right a.pos

theorem join_stop (h : a.stop = b.start) : (a.join b).stop = b.stop := by
  simp only [stop, join] at h ⊢
  omega

theorem Disjoint.symm (h : a.Disjoint b) : b.Disjoint a := Or.symm h

instance : Std.Symm Disjoint := ⟨fun _ _ => Disjoint.symm⟩

theorem Disjoint.join (ha : x.Disjoint a) (hb : x.Disjoint b) (h : a.stop = b.start) :
    x.Disjoint (a.join b) := by
  have hx := x.start_lt_stop
  have hb' := b.start_lt_stop
  simp only [Disjoint, join_stop h, join_start] at ha hb ⊢
  omega

@[simp] theorem total_nil : total [] = 0 := rfl

@[simp] theorem total_cons (a : Seg) (F : List Seg) : total (a :: F) = a.len + total F := by
  simp [total]

@[simp] theorem total_append (F G : List Seg) : total (F ++ G) = total F + total G := by
  simp [total]

/-! ## Putting a segment into a gap -/

/-- Join a segment with the first one behind it. -/
def joinRight (b : Seg) : List Seg → Seg × List Seg
  | [] => (b, [])
  | c :: C => if b.stop = c.start then (b.join c, C) else (b, c :: C)

/-- Join a segment with the last one before it. -/
def joinLeft : List Seg → Seg → List Seg
  | [], b => [b]
  | [a], b => if a.stop = b.start then [a.join b] else [a, b]
  | a :: a' :: A, b => a :: joinLeft (a' :: A) b

def insert (A : List Seg) (b : Seg) (C : List Seg) : List Seg :=
  joinLeft A (joinRight b C).1 ++ (joinRight b C).2

theorem joinLeft_append_singleton (A : List Seg) (a b : Seg) :
    joinLeft (A ++ [a]) b = A ++ (if a.stop = b.start then [a.join b] else [a, b]) := by
  induction A with
  | nil => rfl
  | cons x A ih =>
    cases A with
    | nil => rfl
    | cons y A => exact congrArg (x :: ·) ih

section Right

variable (h : Spaced C) (hC : ∀ c ∈ C, b.stop ≤ c.start)

theorem joinRight_start (b : Seg) (C : List Seg) : (joinRight b C).1.start = b.start := by
  cases C with
  | nil => rfl
  | cons c C =>
    rw [joinRight]
    split <;> rfl

theorem joinRight_sublist (b : Seg) (C : List Seg) : (joinRight b C).2.Sublist C := by
  cases C with
  | nil => exact .slnil
  | cons c C =>
    rw [joinRight]
    split
    · exact List.sublist_cons_self c C
    · exact .refl _

theorem total_joinRight (b : Seg) (C : List Seg) :
    (joinRight b C).1.len + total (joinRight b C).2 = b.len + total C := by
  cases C with
  | nil => rfl
  | cons c C =>
    rw [joinRight]
    split
    · rw [join_len, total_cons, Nat.add_assoc]
    · rfl

theorem forall_joinRight {P : Seg → Prop} (hP : ∀ a b, P a → P b → a.stop = b.start → P (a.join b))
    (hb : P b) (hC : ∀ c ∈ C, P c) : P (joinRight b C).1 := by
  cases C with
  | nil => exact hb
  | cons c C =>
    rw [joinRight]
    split
    · exact hP b c hb (hC c mem_cons_self) ‹_›
    · exact hb

theorem le_joinRight (b : Seg) (C : List Seg) : b.len ≤ (joinRight b C).1.len := by
  cases C with
  | nil => exact le_rfl
  | cons c C =>
    rw [joinRight]
    split
    · exact Nat.le_add_right ..
    · exact le_rfl

include h hC in
theorem joinRight_before : ∀ c ∈ (joinRight b C).2, (joinRight b C).1.stop < c.start := by
  cases C with
  | nil => nofun
  | cons c C =>
    obtain ⟨hc, -⟩ := List.pairwise_cons.mp h
    rw [joinRight]
    split
    · rename_i heq
      intro d hd
      rw [join_stop heq]
      exact hc d hd
    · rename_i hne
      intro d hd
      have hlt : b.stop < c.start := lt_of_le_of_ne (hC c mem_cons_self) hne
      rcases List.mem_cons.mp hd with rfl | hd
      · exact hlt
      · exact hlt.trans (c.start_lt_stop.trans (hc d hd))

end Right

section Left

variable (h : Spaced A) (hA : ∀ a ∈ A, a.stop ≤ b.start)

theorem total_joinLeft (A : List Seg) (b : Seg) : total (joinLeft A b) = total A + b.len := by
  rcases List.eq_nil_or_concat A with rfl | ⟨A, a, rfl⟩
  · simp [joinLeft]
  · rw [List.concat_eq_append, joinLeft_append_singleton]
    split
    · simp
      omega
    · simp
      omega

theorem forall_joinLeft {P : Seg → Prop} (hP : ∀ a b, P a → P b → a.stop = b.start → P (a.join b))
    (hb : P b) (hA : ∀ a ∈ A, P a) : ∀ f ∈ joinLeft A b, P f := by
  rcases List.eq_nil_or_concat A with rfl | ⟨A, a, rfl⟩
  · exact List.forall_mem_singleton.mpr hb
  · rw [List.concat_eq_append] at hA ⊢
    rw [joinLeft_append_singleton]
    rw [List.forall_mem_append] at hA ⊢
    refine ⟨hA.1, ?_⟩
    have ha := List.forall_mem_singleton.mp hA.2
    split
    · exact List.forall_mem_singleton.mpr (hP a b ha hb ‹_›)
    · exact List.forall_mem_cons.mpr ⟨ha, List.forall_mem_singleton.mpr hb⟩

theorem le_joinLeft (A : List Seg) (b : Seg) : ∃ f ∈ joinLeft A b, b.len ≤ f.len := by
  rcases List.eq_nil_or_concat A with rfl | ⟨A, a, rfl⟩
  · exact ⟨b, List.mem_singleton_self b, le_rfl⟩
  · rw [List.concat_eq_append, joinLeft_append_singleton]
    split
    · exact ⟨a.join b, List.mem_append_right A (List.mem_singleton_self _), Nat.le_add_left ..⟩
    · exact ⟨b, List.mem_append_right A (by simp), le_rfl⟩

include hA in
theorem joinLeft_stop_le : ∀ f ∈ joinLeft A b, f.stop ≤ b.stop := by
  have hb := b.start_lt_stop
  rcases List.eq_nil_or_concat A with rfl | ⟨A, a, rfl⟩
  · exact List.forall_mem_singleton.mpr le_rfl
  · rw [List.concat_eq_append] at hA ⊢
    rw [joinLeft_append_singleton]
    rw [List.forall_mem_append] at hA ⊢
    refine ⟨fun f hf => (hA.1 f hf).trans hb.le, ?_⟩
    have ha := List.forall_mem_singleton.mp hA.2
    split
    · exact List.forall_mem_singleton.mpr (join_stop ‹_›).le
    · exact List.forall_mem_cons.mpr ⟨ha.trans hb.le, List.forall_mem_singleton.mpr le_rfl⟩

include h hA in
theorem spaced_joinLeft : Spaced (joinLeft A b) := by
  rcases List.eq_nil_or_concat A with rfl | ⟨A, a, rfl⟩
  · exact List.pairwise_singleton _ _
  · rw [List.concat_eq_append] at h hA ⊢
    rw [joinLeft_append_singleton]
    obtain ⟨hA', -, hgap⟩ := List.pairwise_append.mp h
    have hgap' : ∀ f ∈ A, f.stop < a.start := fun f hf => hgap f hf a (List.mem_singleton_self a)
    have ha : a.stop ≤ b.start := hA a (List.mem_append_right A (List.mem_singleton_self a))
    refine List.pairwise_append.mpr ⟨hA', ?_, fun f hf g hg => ?_⟩
    · split
      · exact List.pairwise_singleton _ _
      · exact List.pairwise_pair.mpr (lt_of_le_of_ne ha ‹_›)
    · have hb : a.start < b.start := a.start_lt_stop.trans_le ha
      split at hg
      · rw [List.mem_singleton.mp hg]
        exact hgap' f hf
      · rcases List.mem_cons.mp hg with rfl | hg
        · exact hgap' f hf
        · rw [List.mem_singleton.mp hg]
          exact (hgap' f hf).trans hb

end Left

/-- The segment fits into the gap between `A` and `C`. -/
structure Gap (A : List Seg) (b : Seg) (C : List Seg) : Prop where
  spaced : Spaced (A ++ C)
  before : ∀ a ∈ A, a.stop ≤ b.start
  behind : ∀ c ∈ C, b.stop ≤ c.start

theorem Gap.spaced_insert (h : Gap A b C) : Spaced (insert A b C) := by
  obtain ⟨hA, hC, -⟩ := List.pairwise_append.mp h.spaced
  have hbefore : ∀ a ∈ A, a.stop ≤ (joinRight b C).1.start := by
    rw [joinRight_start]
    exact h.before
  refine List.pairwise_append.mpr ⟨spaced_joinLeft hA hbefore, ?_, fun f hf c hc => ?_⟩
  · exact hC.sublist (joinRight_sublist b C)
  · exact (joinLeft_stop_le hbefore f hf).trans_lt (joinRight_before hC h.behind c hc)

theorem total_insert (A : List Seg) (b : Seg) (C : List Seg) :
    total (insert A b C) = total (A ++ C) + b.len := by
  rw [insert, total_append, total_joinLeft, total_append]
  have := total_joinRight b C
  omega

theorem forall_insert {P : Seg → Prop} (hP : ∀ a b, P a → P b → a.stop = b.start → P (a.join b))
    (hb : P b) (hF : ∀ f ∈ A ++ C, P f) : ∀ f ∈ insert A b C, P f := by
  obtain ⟨hA, hC⟩ := List.forall_mem_append.mp hF
  refine List.forall_mem_append.mpr ⟨?_, fun c hc => hC c ((joinRight_sublist b C).subset hc)⟩
  exact forall_joinLeft hP (forall_joinRight hP hb hC) hA

theorem disjoint_insert (hb : x.Disjoint b) (hx : ∀ f ∈ A ++ C, x.Disjoint f) :
    ∀ f ∈ insert A b C, x.Disjoint f :=
  forall_insert (fun _ _ => Disjoint.join) hb hx

theorem bound_insert (hb : lo ≤ b.start ∧ b.stop ≤ hi) (hF : ∀ f ∈ A ++ C, lo ≤ f.start ∧ f.stop ≤ hi) :
    ∀ f ∈ insert A b C, lo ≤ f.start ∧ f.stop ≤ hi :=
  forall_insert (fun _ _ ha hb h => ⟨ha.1, (join_stop h).trans_le hb.2⟩) hb hF

theorem le_insert (A : List Seg) (b : Seg) (C : List Seg) : ∃ f ∈ insert A b C, b.len ≤ f.len := by
  obtain ⟨f, hf, hle⟩ := le_joinLeft A (joinRight b C).1
  exact ⟨f, List.mem_append_left _ hf, (le_joinRight b C).trans hle⟩

theorem exists_gap (h : Spaced F) (hb : ∀ f ∈ F, b.Disjoint f) : ∃ A C, F = A ++ C ∧ Gap A b C := by
  induction F with
  | nil => exact ⟨[], [], rfl, h, nofun, nofun⟩
  | cons f F ih =>
    obtain ⟨hf, hF⟩ := List.pairwise_cons.mp h
    rcases hb f mem_cons_self with hle | hle
    · refine ⟨[], f :: F, rfl, h, nofun, fun c hc => ?_⟩
      rcases List.mem_cons.mp hc with rfl | hc
      · exact hle
      · exact hle.trans (f.start_lt_stop.trans (hf c hc)).le
    · obtain ⟨A, C, rfl, hgap⟩ := ih hF fun g hg => hb g (List.mem_cons_of_mem f hg)
      refine ⟨f :: A, C, rfl, h, fun a ha => ?_, hgap.behind⟩
      rcases List.mem_cons.mp ha with rfl | ha
      · exact hle
      · exact hgap.before a ha

/-! ## Parts of segments -/

def Within (a f : Seg) : Prop := f.start ≤ a.start ∧ a.stop ≤ f.stop

theorem Disjoint.within {f : Seg} (h : x.Disjoint f) (ha : a.Within f) : x.Disjoint a := by
  rcases h with h | h
  · exact .inl (h.trans ha.1)
  · exact .inr (ha.2.trans h)

theorem spaced_within {f : Seg} (h : Spaced (A ++ f :: C)) (ha : a.Within f) :
    Spaced (A ++ a :: C) := by
  obtain ⟨hA, hfC, hgap⟩ := List.pairwise_append.mp h
  obtain ⟨hf, hC⟩ := List.pairwise_cons.mp hfC
  refine List.pairwise_append.mpr ⟨hA, ?_, fun x hx y hy => ?_⟩
  · exact List.pairwise_cons.mpr ⟨fun c hc => ha.2.trans_lt (hf c hc), hC⟩
  · rcases List.mem_cons.mp hy with rfl | hy
    · exact (hgap x hx f mem_cons_self).trans_le ha.1
    · exact hgap x hx y (List.mem_cons_of_mem f hy)

theorem disjoint_of_spaced {f : Seg} (h : Spaced (A ++ f :: C)) : ∀ g ∈ A ++ C, f.Disjoint g := by
  obtain ⟨-, hfC, hgap⟩ := List.pairwise_append.mp h
  refine List.forall_mem_append.mpr ⟨fun a ha => ?_, fun c hc => ?_⟩
  · exact .inr (hgap a ha f mem_cons_self).le
  · exact .inl ((List.pairwise_cons.mp hfC).1 c hc).le

/-! ## Counting -/

theorem length_le_total (F : List Seg) : F.length ≤ total F := by
  induction F with
  | nil => rfl
  | cons f F ih =>
    have := f.pos
    rw [List.length_cons, total_cons]
    omega

/-- Between `lo` and `hi` there is room for the segments and the gaps between them. -/
theorem Spaced.total_add_length_le (h : Spaced F) (hlo : lo ≤ hi + 1)
    (hF : ∀ f ∈ F, lo ≤ f.start ∧ f.stop ≤ hi) : lo + total F + F.length ≤ hi + 1 := by
  induction F generalizing lo with
  | nil => exact hlo
  | cons f F ih =>
    obtain ⟨hf, hF'⟩ := List.pairwise_cons.mp h
    have hf' := hF f mem_cons_self
    have hrest := ih hF' (Nat.succ_le_succ hf'.2) fun g hg =>
      ⟨hf g hg, (hF g (List.mem_cons_of_mem f hg)).2⟩
    rw [total_cons, List.length_cons]
    simp only [stop] at hf' hrest
    omega

end Seg
