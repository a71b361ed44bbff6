import MyLearning.MyMuduo.BufferIndices

/-!
# How large a buffer grows

`makeSpace` gives up the bytes in front of `readIndex` only where there are more of them than
are asked for, so a vector that grows ends with fewer than `readableBytes() + 2 * len + 8` bytes.
A buffer that never holds more than `n` readable bytes and is never asked for more than `m` at
a time stays below that for ever, and no operation on it fails. A vector is never made smaller.
-/

namespace MyLearning.Buffer

/-- The result has a vector of at least the size of `b`, and of at most `n` where it has grown;
where it fails, `n` is more than a vector can hold. -/
def Grows (b : Buffer) (n : Nat) : Except Fault Buffer → Prop
  | .ok b' => b.buffer.length ≤ b'.buffer.length ∧ b'.buffer.length ≤ max b.buffer.length n
  | .error _ => Vec.maxSize < n

theorem Grows.mono {b c : Buffer} {n m : Nat} {r : Except Fault Buffer} (h : Grows b n r)
    (hc : c.buffer.length = b.buffer.length) (hn : n ≤ m) : Grows c m r := by
  cases r with
  | ok b' =>
    obtain ⟨hle, hmax⟩ := h
    exact ⟨hc ▸ hle, by rw [hc]; omega⟩
  | error f => exact lt_of_lt_of_le h hn

theorem Grows.same {b b' : Buffer} (n : Nat) (h : b'.buffer.length = b.buffer.length) : Grows b n (.ok b') :=
  ⟨le_of_eq h.symm, h ▸ le_max_left ..⟩

theorem retrieve_size (b : Buffer) (len : Nat) : (b.retrieve len).buffer.length = b.buffer.length := by
  unfold retrieve
  split <;> rfl

section
variable {b : Buffer} (o : InOrder b)
include o

/-! ## Making space -/

theorem InOrder.resized {len : Nat} (hlen : len < 2 ^ 63)
    (hfew : sizeT (b.writableBytes + b.prependableBytes : Nat) < sizeT (len + kCheapPrepend : Nat)) :
    sizeT (b.writeIndex + len : Nat) = b.writeIndex + len ∧ b.writeIndex + len ≤ b.readableBytes + 2 * len + 7 := by
  have horder := o.order
  have hin := o.inside
  have hbound := o.bound
  unfold kCheapPrepend prependableBytes at hfew
  rw [o.writableBytes, sizeT_natCast (by omega), sizeT_natCast (by omega)] at hfew
  rw [o.readableBytes]
  exact ⟨sizeT_natCast (by omega), by omega⟩

theorem makeSpace_grows {len : Nat} (hlen : len < 2 ^ 63) (hw : b.writableBytes < len) :
    Grows b (b.readableBytes + 2 * len + 7) (b.makeSpace len) := by
  have hin := o.inside
  rw [o.writableBytes] at hw
  cases hm : b.makeSpace len with
  | ok b' =>
    unfold makeSpace at hm
    split at hm
    · rename_i hfew
      obtain ⟨hsize, hle⟩ := o.resized hlen hfew
      obtain ⟨v, hv, hm⟩ := bind_eq_ok.mp hm
      cases hm
      have hl := (length_resize hv).1
      rw [hsize] at hl
      exact ⟨by show _ ≤ v.length; omega, by show v.length ≤ _; omega⟩
    · obtain ⟨_, -, hm⟩ := bind_eq_ok.mp hm
      obtain ⟨v, hv, hm⟩ := bind_eq_ok.mp hm
      obtain ⟨_, -, hm⟩ := bind_eq_ok.mp hm
      cases hm
      exact .same _ (Vec.length_copy hv)
  | error f =>
    have hf : f = .lengthError :=
      (makeSpace_yields o (size_fits hlen) (o.sum_fits hlen) (by rw [o.writableBytes]; exact hw)).error hm
    subst hf
    unfold makeSpace at hm
    split at hm
    · rename_i hfew
      obtain ⟨hsize, hle⟩ := o.resized hlen hfew
      rcases bind_eq_error.mp hm with hm | ⟨v, -, hm⟩
      · have hmax := Vec.resize_error hm
        rw [hsize] at hmax
        exact lt_of_lt_of_le hmax hle
      · cases hm
    · rcases bind_eq_error.mp hm with hm | ⟨_, -, hm⟩
      · cases check_error hm
      · rcases bind_eq_error.mp hm with hm | ⟨v, -, hm⟩
        · cases Vec.copy_error hm
        · rcases bind_eq_error.mp hm with hm | ⟨_, -, hm⟩
          · cases check_error hm
          · cases hm

theorem ensureWritableBytes_grows {len : Nat} (hlen : len < 2 ^ 63) :
    Grows b (b.readableBytes + 2 * len + 7) (b.ensureWritableBytes len) := by
  unfold ensureWritableBytes
  by_cases hw : b.writableBytes < len
  · rw [if_pos hw]
    have g := makeSpace_grows o hlen hw
    rcases makeSpace_yields o (size_fits hlen) (o.sum_fits hlen) hw with ⟨b', hb', -, hroom⟩ | he
    · rw [hb'] at g
      rw [hb', ok_bind, check_pos hroom]
      exact g
    · rw [he] at g
      rw [he]
      exact g
  · rw [if_neg hw, ok_bind, check_pos (not_lt.mp hw)]
    exact .same _ rfl

/-! ## The operations -/

theorem store_ok {data : List UInt8} (h : data.length ≤ b.writableBytes) :
    ∃ v, Vec.store b.buffer b.writeIndex data = .ok v ∧ v.length = b.buffer.length ∧ InOrder { b with buffer := v } := by
  have hin := o.inside
  have hlen := h
  rw [o.writableBytes] at hlen
  have hs := Vec.store_eq (show b.writeIndex + data.length ≤ b.buffer.length by omega)
  obtain ⟨ov, hl⟩ := (store_yields o h).post hs
  exact ⟨_, hs, hl, ov⟩

theorem append_grows {data : List UInt8} (hlen : data.length < 2 ^ 63) :
    Grows b (b.readableBytes + 2 * data.length + 7) (b.append data) := by
  have g := ensureWritableBytes_grows o hlen
  unfold append
  rcases ensureWritableBytes_yields o (size_fits hlen) (o.sum_fits hlen) with ⟨c, hc, oc, hroom⟩ | he
  · obtain ⟨v, hv, hl, -⟩ := store_ok oc hroom
    rw [hc] at g
    rw [hc, ok_bind, hv, ok_bind]
    exact ⟨hl ▸ g.1, hl ▸ g.2⟩
  · rw [he] at g
    rw [he]
    exact g

theorem readFd_grows {data : List UInt8} (hlen : data.length < 2 ^ 63) :
    Grows b (b.readableBytes + 2 * data.length + 7) (Op.run b (.readFd (.ok data))) := by
  have hin := o.inside
  have horder := o.order
  have hwritable := o.writableBytes
  obtain ⟨v, hv, hl, ov⟩ := store_ok o (List.length_take_le b.writableBytes data)
  simp only [Op.run, readFd, hv, ok_bind]
  split
  · exact .same _ hl
  · have hrest : (data.drop b.writableBytes).length = data.length - b.writableBytes := List.length_drop
    -- what `readv` put into the vector is readable by now
    have oend := atEnd_inOrder ov
    have hread : Buffer.readableBytes ⟨v, b.readIndex, v.length⟩ = b.readableBytes + b.writableBytes := by
      rw [oend.readableBytes, o.readableBytes, hwritable]
      show v.length - b.readIndex = _
      omega
    have g := (append_grows oend (show (data.drop b.writableBytes).length < 2 ^ 63 by omega)).mono (c := b)
      (m := b.readableBytes + 2 * data.length + 7) hl.symm (by simp only [hread]; omega)
    cases ha : append ⟨v, b.readIndex, v.length⟩ (data.drop b.writableBytes) with
    | ok b' =>
      rw [ha] at g
      exact g
    | error f =>
      rw [ha] at g
      exact g

theorem retrieveAsString_ok {len : Nat} (h : len ≤ b.readableBytes) :
    ∃ res, b.retrieveAsString len = .ok (b.retrieve len, res) := by
  have hin := o.inside
  have horder := o.order
  have hlen := h
  rw [o.readableBytes] at hlen
  unfold retrieveAsString
  rw [check_pos h, ok_bind, Vec.load_eq (.inr (by omega)), ok_bind]
  exact ⟨_, rfl⟩

end

def Op.request : Op → Nat
  | append data | readFd (.ok data) => data.length
  | ensureWritableBytes len => len
  | readFd (.error _) | hasWriten _ | retrieve _ | retrieveAll | retrieveAsString _ | retrieveAllAsString => 0

theorem Op.run_grows {b : Buffer} (o : InOrder b) {op : Op} (h : op.Asked b) :
    Grows b (b.readableBytes + 2 * op.request + 7) (op.run b) := by
  cases op with
  | append data => exact append_grows o h
  | readFd n =>
    cases n with
    | error errno => exact .same _ rfl
    | ok data => exact readFd_grows o h
  | ensureWritableBytes len => exact ensureWritableBytes_grows o h
  | hasWriten data =>
    obtain ⟨v, hv, hl, -⟩ := store_ok o h
    have hroom : data.length ≤ Buffer.writableBytes { b with buffer := v } := by
      unfold Buffer.writableBytes
      rw [hl]
      exact h
    simp only [run, hv, ok_bind, Buffer.hasWriten, check_pos hroom]
    exact .same _ hl
  | retrieve len => exact .same _ (retrieve_size b len)
  | retrieveAll => exact .same _ rfl
  | retrieveAsString len =>
    obtain ⟨res, hres⟩ := retrieveAsString_ok o h
    simp only [run, hres, ok_bind]
    exact .same _ (retrieve_size b len)
  | retrieveAllAsString =>
    obtain ⟨res, hres⟩ := retrieveAsString_ok o (le_refl b.readableBytes)
    simp only [run, Buffer.retrieveAllAsString, hres, ok_bind]
    exact .same _ (retrieve_size b _)

/-! ## Runs -/

section
variable {ι : Type*} [DecidableEq ι]

/-- A buffer of at most `n` readable bytes is asked for at most `m`. -/
def Act.Modest (n m : Nat) (s : State ι) : Act ι → Prop
  | .on i op => (s i).buf.readableBytes ≤ n ∧ op.request ≤ m
  | .swap _ _ => True

theorem step_grows {s t : State ι} (o : ∀ i, InOrder (s i).buf) {i : ι} {op : Op} (ha : op.Asked (s i).buf)
    (h : step s (.on i op) = some (.ok t)) (j : ι) : (s j).buf.buffer.length ≤ (t j).buf.buffer.length ∧
      (t j).buf.buffer.length ≤ max (s j).buf.buffer.length ((s i).buf.readableBytes + 2 * op.request + 7) := by
  simp only [step, Option.ite_none_right_eq_some, Option.some.injEq] at h
  obtain ⟨-, h⟩ := h
  obtain ⟨b', hb, rfl⟩ := map_eq_ok.mp h
  by_cases hj : j = i
  · subst hj
    have g := Op.run_grows (o j) ha
    rw [hb] at g
    rw [Function.update_self]
    exact g
  · rw [Function.update_of_ne hj]
    exact ⟨le_refl _, le_max_left ..⟩

theorem step_modest {n m k : Nat} {s t : State ι} {a : Act ι} (o : ∀ i, InOrder (s i).buf) (ha : a.Asked s)
    (hm : a.Modest n m s) (hk : ∀ i, (s i).buf.buffer.length ≤ max k (n + 2 * m + 7)) (h : step s a = some (.ok t)) (i : ι) :
    (t i).buf.buffer.length ≤ max k (n + 2 * m + 7) := by
  cases a with
  | on j op =>
    obtain ⟨hn, hm⟩ := hm
    have hle := (step_grows o ha h i).2
    have hi := hk i
    omega
  | swap j l =>
    cases h
    exact (forall_update (P := fun x => x.buf.buffer.length ≤ max k (n + 2 * m + 7))
      ((forall_update (P := fun x => x.buf.buffer.length ≤ max k (n + 2 * m + 7)) hk).mpr (hk l))).mpr (hk j) i

/-- **Memory.** Along every run in which a buffer is only asked for at most `m` bytes while it holds at
most `n`, no vector has more bytes than it or another had at first, or than `n + 2 * m + 7`; if a
vector can hold that many, no such operation fails; and an operation never makes a vector smaller. -/
theorem memory_bounded {n m k : Nat} {s₀ s : State ι} {tr : List (Act ι)} (h₀ : (askedLts ι).init s₀)
    (hk : ∀ i, (s₀ i).buf.buffer.length ≤ k) (hr : ((askedLts ι).restrict (Act.Modest n m)).Run s₀ tr s) :
    (∀ i, (s i).buf.buffer.length ≤ max k (n + 2 * m + 7)) ∧
    (n + 2 * m + 7 ≤ Vec.maxSize → ∀ a r, a.Asked s → a.Modest n m s → step s a = some r → ∃ t, r = .ok t) ∧
    ∀ i op t, op.Asked (s i).buf → step s (.on i op) = some (.ok t) →
      ∀ j, (s j).buf.buffer.length ≤ (t j).buf.buffer.length := by
  have hreach : (askedLts ι).Reachable s := ⟨s₀, tr, h₀, hr.of_restrict⟩
  have o := reachable_inOrder hreach
  refine ⟨?_, ?_, ?_⟩
  · have inv := hr.invariant
      (I := fun s => (∀ i, InOrder (s i).buf) ∧ ∀ i, (s i).buf.buffer.length ≤ max k (n + 2 * m + 7)) ?_ ?_
    · exact inv.2
    · intro s a t ⟨o, hk⟩ ⟨hm, ha, hs⟩
      exact ⟨(step_yields o ha hs).post rfl, step_modest o ha hm hk hs⟩
    · exact ⟨reachable_inOrder (.init h₀), fun i => (hk i).trans (le_max_left ..)⟩
  · intro hmax a r ha hm hs
    cases a with
    | on i op =>
      simp only [step, Option.ite_none_right_eq_some, Option.some.injEq] at hs
      obtain ⟨-, rfl⟩ := hs
      have g := Op.run_grows (o i) ha
      cases hrun : op.run (s i).buf with
      | ok b' => exact ⟨_, rfl⟩
      | error f =>
        rw [hrun] at g
        obtain ⟨hn, hm⟩ := hm
        have hlt : Vec.maxSize < (s i).buf.readableBytes + 2 * op.request + 7 := g
        omega
    | swap i j =>
      cases hs
      exact ⟨_, rfl⟩
  · intro i op t ha hs j
    exact (step_grows o ha hs j).1

end

theorem memory_bounded_grown : ∃ s, (askedLts Unit).Reachable s ∧ (s ()).buf.buffer.length = 13 + 2 * 4 + 7 ∧
    (s ()).buf.buffer.length ≤ max 24 (16 + 2 * 4 + 7) ∧
    ∃ t, step s (.on () (.append [1, 2, 3, 4])) = some (.ok t) := by
  have h₀ : (askedLts Unit).init (fresh Unit) := fun _ => ⟨16, by decide, rfl, rfl⟩
  have hrun : ((askedLts Unit).restrict (Act.Modest 16 4)).Run (fresh Unit)
      [.on () (.hasWriten (List.replicate 16 1)), .on () (.retrieve 3), .on () (.append [5, 6, 7, 8])] _ :=
    .cons ⟨⟨by decide, by decide⟩, by show 16 ≤ _; decide, rfl⟩
      (.cons ⟨⟨by decide, by decide⟩, by show 3 < _; decide, rfl⟩
        (.single ⟨⟨by decide, by decide⟩, by show 4 < _; decide, rfl⟩))
  have hk : ∀ i, (fresh Unit i).buf.buffer.length ≤ 24 := fun _ => le_of_eq List.length_replicate
  obtain ⟨hsize, hok, -⟩ := memory_bounded h₀ hk hrun
  obtain ⟨t, ht⟩ := hok (by decide) (.on () (.append [1, 2, 3, 4])) _ (by show 4 < _; decide) ⟨by decide, by decide⟩ rfl
  exact ⟨_, ⟨_, _, h₀, hrun.of_restrict⟩, by decide, hsize (), t, congrArg some ht⟩

end MyLearning.Buffer
