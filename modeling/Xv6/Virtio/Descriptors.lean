import Xv6.Virtio.Disk

/-!
# Chains of descriptors

What `alloc3_desc` and `free_chain` do to the descriptors, as one step for the chain (`Disk.take`,
`Disk.give`), and that the device finds in a chain what `virtio_disk_rw` has put there.  None of the
panics is met on the way.
-/

namespace Xv6.Virtio

open Function (update update_apply update_of_ne)

namespace Disk

variable {B : Type} {d d' : Disk B} {r : Call B} {c : Chain} {i : Nat}

def take (d : Disk B) (c : Chain) : Disk B :=
  { d with free := fun i => if i ∈ c.toList then false else d.free i }

def give (d : Disk B) (c : Chain) : Disk B :=
  { d with
    desc := fun i => if i ∈ c.toList then ⟨.null, 0, 0, 0⟩ else d.desc i
    free := fun i => if i ∈ c.toList then true else d.free i }

theorem allocDesc_eq_some (h : d.allocDesc = some (i, d')) :
    i < num ∧ d.free i = true ∧ d' = { d with free := update d.free i false } := by
  rw [allocDesc] at h
  split at h
  · rename_i j hj
    obtain ⟨rfl, rfl⟩ : j = i ∧ _ = d' := by simpa using h
    exact ⟨List.mem_range.mp (List.mem_of_find?_eq_some hj), List.find?_some hj, rfl⟩
  · exact absurd h (by simp)

theorem freeDesc_eq (hi : i < num) (hfree : d.free i = false) :
    d.freeDesc i = .ok { d with
      desc := update d.desc i ⟨.null, 0, 0, 0⟩
      free := update d.free i true } := by
  rw [freeDesc, if_neg (Nat.not_le.mpr hi), if_neg (by simp [hfree])]

/-- **`alloc3_desc`** takes three free descriptors, or gives back what it has taken.  Then it clears
descriptors that were free. -/
theorem alloc3Desc_cases (d : Disk B) :
    (∃ c : Chain, d.alloc3Desc = .ok (some c, d.take c) ∧ c.toList.Nodup ∧
      ∀ i ∈ c.toList, i < num ∧ d.free i = true) ∨
    ∃ desc, d.alloc3Desc = .ok (none, { d with desc := desc }) ∧
      ∀ i, d.free i = false → desc i = d.desc i := by
  cases hi : d.allocDesc with
  | none => exact .inr ⟨d.desc, by rw [alloc3Desc, hi], fun _ _ => rfl⟩
  | some x =>
    obtain ⟨i, d1⟩ := x
    obtain ⟨hilt, hifree, hd1⟩ := allocDesc_eq_some hi
    cases hj : d1.allocDesc with
    | none =>
      refine .inr ⟨update d.desc i ⟨.null, 0, 0, 0⟩, ?_, fun a ha => ?_⟩
      · rw [alloc3Desc, hi]
        dsimp only
        rw [hj]
        dsimp only
        rw [freeDesc_eq hilt (by simp [hd1]), hd1]
        simp [← hifree]
      · rw [update_of_ne]
        rintro rfl
        exact absurd hifree (by simp [ha])
    | some y =>
      obtain ⟨j, d2⟩ := y
      obtain ⟨hjlt, hjfree, hd2⟩ := allocDesc_eq_some hj
      have hji : j ≠ i := by
        rintro rfl
        exact absurd hjfree (by simp [hd1])
      have hjfree' : d.free j = true := by simpa [hd1, hji] using hjfree
      cases hk : d2.allocDesc with
      | none =>
        refine .inr ⟨update (update d.desc i ⟨.null, 0, 0, 0⟩) j ⟨.null, 0, 0, 0⟩, ?_,
          fun a ha => ?_⟩
        · rw [alloc3Desc, hi]
          dsimp only
          rw [hj]
          dsimp only
          rw [hk]
          dsimp only
          rw [freeDesc_eq hilt (by simp [hd1, hd2, Ne.symm hji])]
          dsimp only
          rw [freeDesc_eq hjlt (by simp [hd2, hji]), hd2, hd1]
          dsimp only
          congr 3
          funext a
          simp only [update_apply]
          split_ifs with h1 h2
          · rw [h1, hjfree']
          · rw [h2, hifree]
          · rfl
        · rw [update_of_ne, update_of_ne]
          · rintro rfl
            exact absurd hifree (by simp [ha])
          · rintro rfl
            exact absurd hjfree' (by simp [ha])
      | some z =>
        obtain ⟨k, d3⟩ := z
        obtain ⟨hklt, hkfree, hd3⟩ := allocDesc_eq_some hk
        have hkj : k ≠ j := by
          rintro rfl
          exact absurd hkfree (by simp [hd2])
        have hki : k ≠ i := by
          rintro rfl
          exact absurd hkfree (by simp [hd2, hd1, hkj])
        refine .inl ⟨⟨i, j, k⟩, ?_, ?_, ?_⟩
        · rw [alloc3Desc, hi]
          dsimp only
          rw [hj]
          dsimp only
          rw [hk, hd3, hd2, hd1, take]
          dsimp only
          congr 3
          funext a
          simp only [update_apply, Chain.toList, List.mem_cons, List.not_mem_nil, or_false]
          grind
        · simp [Chain.toList, Ne.symm hji, Ne.symm hkj, Ne.symm hki]
        · simp only [Chain.toList, List.mem_cons, List.not_mem_nil, or_false]
          rintro a (rfl | rfl | rfl)
          · exact ⟨hilt, hifree⟩
          · exact ⟨hjlt, hjfree'⟩
          · exact ⟨hklt, by simpa [hd2, hd1, hkj, hki] using hkfree⟩

/-- The chain for a call, as `virtio_disk_rw` has formatted it. -/
structure Formatted (d : Disk B) (r : Call B) (c : Chain) : Prop where
  head : d.desc c.head = ⟨.op c.head, 16, descNext, c.data⟩
  data : d.desc c.data =
    ⟨.data r.b, 1024, (if r.write then 0 else descWrite) ||| descNext, c.status⟩
  status : d.desc c.status = ⟨.status c.head, 1, descWrite, 0⟩
  op : d.ops c.head = r.op
  buf : (d.info c.head).b = some r.b

theorem Formatted.congr (h : d.Formatted r c) (hdesc : ∀ i ∈ c.toList, d'.desc i = d.desc i)
    (hop : d'.ops c.head = d.ops c.head) (hbuf : (d'.info c.head).b = (d.info c.head).b) :
    d'.Formatted r c where
  head := by rw [hdesc _ (by simp [Chain.toList]), h.head]
  data := by rw [hdesc _ (by simp [Chain.toList]), h.data]
  status := by rw [hdesc _ (by simp [Chain.toList]), h.status]
  op := by rw [hop, h.op]
  buf := by rw [hbuf, h.buf]

theorem formatted_format (hnodup : c.toList.Nodup) : (d.format r c).Formatted r c := by
  simp only [Chain.toList, List.nodup_cons, List.mem_cons, List.not_mem_nil, or_false, not_or] at hnodup
  obtain ⟨⟨hhd, hhs⟩, hds, -⟩ := hnodup
  constructor <;> simp [format, hhd, hhs, hds]

theorem format_of_notMem (hi : i ∉ c.toList) : (d.format r c).desc i = d.desc i ∧
    (d.format r c).ops i = d.ops i ∧ (d.format r c).info i = d.info i := by
  simp only [Chain.toList, List.mem_cons, List.not_mem_nil, or_false, not_or] at hi
  simp [format, hi]

theorem Formatted.flags_data (h : d.Formatted r c) : (d.desc c.data).flags &&& descNext ≠ 0 := by
  rw [h.data]
  dsimp only
  cases r.write <;> decide

theorem Formatted.request_eq (h : d.Formatted r c) : d.request c.head = some (r.request, c.head) := by
  have hflags := h.flags_data
  rw [request]
  simp only [h.head, h.status, h.data, h.op] at hflags ⊢
  rw [if_pos ⟨by decide, hflags, by decide⟩]
  rfl

theorem Formatted.freeChain_eq (h : d.Formatted r c) (hnodup : c.toList.Nodup)
    (hlt : ∀ i ∈ c.toList, i < num) (hfree : ∀ i ∈ c.toList, d.free i = false) :
    (d.forget c.head).freeChain num c.head = .ok ((d.forget c.head).give c) := by
  simp only [Chain.toList, List.nodup_cons, List.mem_cons, List.not_mem_nil, or_false, not_or,
    forall_eq_or_imp, forall_eq] at hnodup hlt hfree
  obtain ⟨⟨hhd, hhs⟩, hds, -⟩ := hnodup
  have hflags := h.flags_data
  rw [freeChain, freeDesc_eq hlt.1 (by exact hfree.1)]
  simp only [forget, h.head]
  rw [if_pos (by decide), freeChain, freeDesc_eq hlt.2.1 (by simp [Ne.symm hhd, hfree.2.1])]
  simp only [update_of_ne (Ne.symm hhd)]
  rw [if_pos hflags, h.data, freeChain,
    freeDesc_eq hlt.2.2 (by simp [Ne.symm hhs, Ne.symm hds, hfree.2.2])]
  simp only [update_of_ne (Ne.symm hhs), update_of_ne (Ne.symm hds), h.status]
  rw [if_neg (by decide), give]
  congr 2
  · funext a
    simp only [update_apply, Chain.toList, List.mem_cons, List.not_mem_nil, or_false]
    grind
  · funext a
    simp only [update_apply, Chain.toList, List.mem_cons, List.not_mem_nil, or_false]
    grind

end Disk

end Xv6.Virtio
