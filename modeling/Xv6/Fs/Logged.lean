import Xv6.Fs.Bmap

/-!
# Blocks that are changed are logged

A block that is changed in the buffer cache reaches the disk only if it has been given to `log_write`.
`Logs s t` says that this holds of everything between the two states; it is transitive, so it holds of
every program whose parts change blocks by `Vol.write` only.
-/

namespace Xv6.Fs.Vol

open Prog

/-- Between the two states, every block that has changed has been given to `log_write`. -/
structure Logs (s t : Vol) : Prop where
  mono : ∀ b ∈ s.logged, b ∈ t.logged
  same : ∀ b, b ∉ t.logged → t.block b = s.block b

instance : Std.Refl Logs := ⟨fun _ => ⟨fun _ => id, fun _ _ => rfl⟩⟩

instance : IsTrans Vol Logs := ⟨fun _ _ _ h h' =>
  ⟨fun b hb => h'.mono b (h.mono b hb),
    fun b hb => (h'.same b hb).trans (h.same b fun hb' => hb (h'.mono b hb'))⟩⟩

theorem Logs.refl (s : Vol) : Logs s s := Std.Refl.refl s

theorem Logs.trans {s t u : Vol} (h : Logs s t) (h' : Logs t u) : Logs s u := trans_of Logs h h'

theorem Logs.of_eq {s t : Vol} (hb : t.block = s.block) (hl : t.logged = s.logged) : Logs s t :=
  ⟨fun b hb => by rwa [hl], fun b _ => by rw [hb]⟩

theorem Logs.write (s : Vol) (b : Nat) (d : Block) : Logs s ((s.setBlock b d).log b) where
  mono _ hc := mem_log_of_mem b hc
  same c hc := by
    refine Function.update_of_ne ?_ ..
    rintro rfl
    exact hc (mem_log_self _ c)

abbrev anyError : Stop → Prop := fun _ => True

section Programs

variable {L : Layout}

theorem logs_write (b : Nat) (d : Block) : Moves Logs anyError (write b d) := by
  intro s
  cases hop : s.inOp with
  | true => exact wp_write hop (.write s b d)
  | false =>
    rw [Vol.write, wp_bind, wp_modify, logWrite, wp_bind, wp_get, wp_ite]
    exact (if_pos (show (s.setBlock b d).inOp = false from hop)).mpr trivial

theorem logs_ballocFrom (n b : Nat) : Moves Logs anyError (ballocFrom L n b) := by
  induction n generalizing b with
  | zero => exact .pure 0
  | succ n ih =>
    refine .ite (fun _ => .get fun s => ?_) fun _ => .pure 0
    dsimp only
    split
    · exact (logs_write _ _).bind (fun _ => (logs_write _ _).bind fun _ => .pure _) s
    · exact ih _ s

theorem logs_balloc : Moves Logs anyError (balloc L) := logs_ballocFrom _ _

theorem logs_setAddr (i k a : Nat) : Moves Logs anyError (setAddr i k a) := .of_modify fun _ => .of_eq rfl rfl

theorem logs_bmapAddr (i k : Nat) : Moves Logs anyError (bmapAddr L i k) := by
  refine .get fun s => (Moves.ite (fun _ => logs_balloc.bind fun a => ?_) fun _ => .pure _) s
  exact .ite (fun _ => .pure 0) fun _ => (logs_setAddr i k a).bind fun _ => .pure a

theorem logs_bmapIndirect (a j : Nat) : Moves Logs anyError (bmapIndirect L a j) := by
  refine .get fun s => (Moves.ite (fun _ => logs_balloc.bind fun c => ?_) fun _ => .pure _) s
  exact .ite (fun _ => .pure 0) fun _ => .get fun t => (logs_write _ _).bind (fun _ => .pure c) t

theorem logs_bmap (i bn : Nat) : Moves Logs anyError (bmap L i bn) := by
  refine .ite (fun _ => logs_bmapAddr i bn) fun _ => .ite (fun _ => ?_) fun _ => .throw trivial
  exact (logs_bmapAddr i ndirect).bind fun a => .ite (fun _ => .pure 0) fun _ => logs_bmapIndirect a _

theorem Logs.store (s : Vol) (i : Nat) : Logs s (s.store L i) := .write s _ _

theorem wp_bmapLogs {s : Vol} {i : Nat} {Q : Nat → Vol → Prop} {E : Stop → Vol → Prop}
    (h : Own L (s.ino L i) s.block []) (hi : i < L.ninodes) (ht : (s.mem i).type ≠ 0) {bn : Nat}
    (hbn : bn < maxFile) (hop : refs L (s.ino L i) s.block (i, .data bn) = 0 → s.inOp = true)
    (hsame : refs L (s.ino L i) s.block (i, .data bn) ≠ 0 →
      Q (refs L (s.ino L i) s.block (i, .data bn)) s)
    (hnew : ∀ a t, refs L (s.ino L i) s.block (i, .data bn) = 0 →
      Mapped L i (.data bn) s a t → Logs s t → Q a t) : wp (bmap L i bn) Q E s := by
  have hboth : wp (bmap L i bn) (fun a t => (Logs s t → Q a t) ∧ Logs s t)
      (fun e t => E e t ∧ True) s :=
    (wp_bmap h hi ht hbn hop (fun hne _ => hsame hne) hnew).and (logs_bmap i bn s)
  exact hboth.mono (fun _ _ hQ => hQ.1 hQ.2) fun _ _ => And.left

end Programs

end Xv6.Fs.Vol
