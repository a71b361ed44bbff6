import MyLearning.MyMuduo.Buffer

/-!
# The buffer as a queue

`append` copies its bytes behind the readable region and leaves `writeIndex` where
it is, so the bytes are not in the buffer; `readFd` appends what went to `extrabuf`.
And `makeSpace` resizes to a sum that can wrap around, to a vector shorter than what
it holds. An operation that does neither keeps the readable bytes equal to the queue,
and one that does either breaks that at once.
-/

namespace MyLearning.Buffer

theorem ensureWritableBytes_zero (b : Buffer) : b.ensureWritableBytes 0 = .ok b := by
  unfold ensureWritableBytes
  rw [if_neg (Nat.not_lt_zero _), ok_bind, check_pos (Nat.zero_le _)]
  rfl

theorem append_nil (b : Buffer) : b.append [] = .ok b := by
  unfold append
  rw [List.length_nil, ensureWritableBytes_zero]
  rfl

/-! ## The indices -/

/-- The indices are in order, and inside the vector where there is a byte to read. -/
structure WellFormed (b : Buffer) : Prop where
  front : kCheapPrepend ≤ b.readIndex
  order : b.readIndex ≤ b.writeIndex
  inside : b.writeIndex ≤ b.buffer.length ∨ b.readIndex = b.writeIndex
  bound : b.buffer.length < 2 ^ 63
  small : b.writeIndex < 2 ^ 64

theorem readable_eq {b b' : Buffer} (hr : b'.readIndex = b.readIndex) (hw : b'.writeIndex = b.writeIndex)
    (h : b'.buffer.take b.writeIndex = b.buffer.take b.writeIndex) : b'.readable = b.readable := by
  unfold readable
  rw [← List.drop_take, ← List.drop_take, hr, hw, h]

theorem readable_nil {b : Buffer} (h : b.readIndex = b.writeIndex) : b.readable = [] := by
  unfold readable
  rw [h, Nat.sub_self, List.take_zero]

theorem length_readable_le (b : Buffer) : b.readable.length ≤ b.writeIndex - b.readIndex :=
  List.length_take_le _ _

theorem create_wellFormed {n : Nat} {b : Buffer} (h : create n = .ok b) : WellFormed b ∧ b.readable = [] := by
  obtain ⟨v, hv, h⟩ := bind_eq_ok.mp h
  obtain ⟨hle, rfl⟩ := Vec.resize_eq_ok.mp hv
  obtain ⟨_, -, h⟩ := bind_eq_ok.mp h
  obtain ⟨_, -, h⟩ := bind_eq_ok.mp h
  obtain ⟨_, -, h⟩ := bind_eq_ok.mp h
  cases h
  refine ⟨⟨le_refl _, le_refl _, .inr rfl, ?_, (by decide : 8 < 2 ^ 64)⟩, readable_nil rfl⟩
  simp only [List.take_nil, List.nil_append, List.length_replicate, List.length_nil, Vec.maxSize] at hle ⊢
  omega

theorem length_resize {v v' : List UInt8} {n : Nat} (h : Vec.resize v n 0 = .ok v') :
    v'.length = n ∧ n < 2 ^ 63 := by
  obtain ⟨hle, rfl⟩ := Vec.resize_eq_ok.mp h
  unfold Vec.maxSize at hle
  simp only [List.length_append, List.length_take, List.length_replicate]
  omega

theorem ensureWritableBytes_cases {b b' : Buffer} {len : Nat} (horder : b.readIndex ≤ b.writeIndex)
    (hsmall : b.writeIndex < 2 ^ 64) (h : b.ensureWritableBytes len = .ok b') :
    len ≤ b'.writableBytes ∧
      (b' = b ∨
        (∃ v, b.writableBytes < len ∧ Vec.resize b.buffer (sizeT (b.writeIndex + len : Nat)) 0 = .ok v ∧
          b' = { b with buffer := v }) ∨
        ∃ v, Vec.copy b.buffer b.readIndex kCheapPrepend (b.writeIndex - b.readIndex) = .ok v ∧
          b' = ⟨v, kCheapPrepend, kCheapPrepend + (b.writeIndex - b.readIndex)⟩) := by
  obtain ⟨c, hc, h⟩ := bind_eq_ok.mp h
  obtain ⟨_, hlen, h⟩ := bind_eq_ok.mp h
  cases h
  refine ⟨check_eq_ok.mp hlen, ?_⟩
  split at hc
  · rename_i hw
    unfold makeSpace at hc
    split at hc
    · obtain ⟨v, hv, hc⟩ := bind_eq_ok.mp hc
      cases hc
      exact .inr (.inl ⟨v, hw, hv, rfl⟩)
    · obtain ⟨_, hlt, hc⟩ := bind_eq_ok.mp hc
      obtain ⟨v, hv, hc⟩ := bind_eq_ok.mp hc
      obtain ⟨_, -, hc⟩ := bind_eq_ok.mp hc
      cases hc
      refine .inr (.inr ⟨v, hv, ?_⟩)
      have hlt := check_eq_ok.mp hlt
      have hspan : b.readableBytes = b.writeIndex - b.readIndex := sizeT_sub horder hsmall
      rw [hspan, sizeT_natCast (by omega)]
  · cases hc
    exact .inl rfl

section
variable {b : Buffer} (wf : WellFormed b)
include wf

theorem WellFormed.readableBytes : b.readableBytes = b.writeIndex - b.readIndex :=
  sizeT_sub wf.order wf.small

theorem WellFormed.writableBytes (h : b.writeIndex ≤ b.buffer.length) :
    b.writableBytes = b.buffer.length - b.writeIndex := sizeT_sub h (by have := wf.bound; omega)

theorem WellFormed.length_readable : b.readable.length = b.writeIndex - b.readIndex := by
  unfold readable
  rw [List.length_take, List.length_drop]
  rcases wf.inside with h | h
  · have := wf.order
    omega
  · omega

theorem WellFormed.inside_of_lt (h : b.readIndex < b.writeIndex) : b.writeIndex ≤ b.buffer.length :=
  wf.inside.resolve_right (Nat.ne_of_lt h)

/-! ## Making space -/

theorem ensureWritableBytes_span {len : Nat} {b' : Buffer} (h : b.ensureWritableBytes len = .ok b') :
    b'.writeIndex - b'.readIndex = b.writeIndex - b.readIndex := by
  obtain ⟨-, rfl | ⟨v, -, -, rfl⟩ | ⟨v, -, rfl⟩⟩ := ensureWritableBytes_cases wf.order wf.small h
  · rfl
  · rfl
  · exact Nat.add_sub_cancel_left ..

theorem grow_keeps {len : Nat} {v : List UInt8} (hw : b.writableBytes < len)
    (hv : Vec.resize b.buffer (sizeT (b.writeIndex + len : Nat)) 0 = .ok v)
    (hlen : b.writeIndex + len < 2 ^ 64 ∨ b.readIndex = b.writeIndex) :
    WellFormed { b with buffer := v } ∧ Buffer.readable { b with buffer := v } = b.readable := by
  obtain ⟨hl, hbound⟩ := length_resize hv
  obtain ⟨-, hv⟩ := Vec.resize_eq_ok.mp hv
  by_cases hempty : b.readIndex = b.writeIndex
  · refine ⟨⟨wf.front, wf.order, .inr hempty, hl ▸ hbound, wf.small⟩, ?_⟩
    rw [readable_nil hempty]
    exact readable_nil hempty
  · have hlen := hlen.resolve_right hempty
    have hin := wf.inside.resolve_right hempty
    rw [sizeT_natCast hlen] at hl hbound hv
    refine ⟨⟨wf.front, wf.order, .inl (hl ▸ Nat.le_add_right ..), hl ▸ hbound, wf.small⟩, ?_⟩
    rw [wf.writableBytes hin] at hw
    have htake : v.take b.writeIndex = b.buffer.take b.writeIndex := by
      rw [← hv, List.take_of_length_le (l := b.buffer) (by omega), List.take_append_of_le_length hin]
    exact readable_eq rfl rfl htake

theorem move_keeps {v : List UInt8}
    (hv : Vec.copy b.buffer b.readIndex kCheapPrepend (b.writeIndex - b.readIndex) = .ok v) :
    let b' : Buffer := ⟨v, kCheapPrepend, kCheapPrepend + (b.writeIndex - b.readIndex)⟩
    WellFormed b' ∧ b'.readable = b.readable := by
  have hfront := wf.front
  have horder := wf.order
  have hbound := wf.bound
  by_cases hempty : b.readIndex = b.writeIndex
  · rw [hempty, Nat.sub_self] at hv ⊢
    cases hv
    rw [readable_nil hempty]
    exact ⟨⟨le_refl _, le_refl _, .inr rfl, hbound, by show kCheapPrepend + 0 < 2 ^ 64; decide⟩, readable_nil rfl⟩
  · have hin := wf.inside.resolve_right hempty
    have hcells : ((b.buffer.drop b.readIndex).take (b.writeIndex - b.readIndex)).length =
        b.writeIndex - b.readIndex := wf.length_readable
    have hk : (b.buffer.take kCheapPrepend).length = kCheapPrepend := by
      rw [List.length_take]; omega
    rw [Vec.copy_eq hfront (by omega)] at hv
    cases hv
    have hl : (b.buffer.take kCheapPrepend ++ (b.buffer.drop b.readIndex).take (b.writeIndex - b.readIndex) ++
        b.buffer.drop (kCheapPrepend + (b.writeIndex - b.readIndex))).length = b.buffer.length := by
      simp only [List.length_append, hk, hcells, List.length_drop]
      omega
    refine ⟨⟨le_refl _, Nat.le_add_right .., .inl ?_, hl ▸ hbound, ?_⟩, ?_⟩
    · rw [hl]
      show kCheapPrepend + (b.writeIndex - b.readIndex) ≤ b.buffer.length
      omega
    · show kCheapPrepend + (b.writeIndex - b.readIndex) < 2 ^ 64
      omega
    · unfold readable
      simp only [Nat.add_sub_cancel_left, List.append_assoc]
      rw [List.drop_left' hk, List.take_left' hcells]

theorem ensureWritableBytes_keeps {len : Nat} {b' : Buffer} (h : b.ensureWritableBytes len = .ok b')
    (hlen : b.writeIndex + len < 2 ^ 64 ∨ b.readIndex = b.writeIndex) :
    WellFormed b' ∧ b'.readable = b.readable := by
  obtain ⟨-, rfl | ⟨v, hw, hv, rfl⟩ | ⟨v, hv, rfl⟩⟩ := ensureWritableBytes_cases wf.order wf.small h
  · exact ⟨wf, rfl⟩
  · exact grow_keeps wf hw hv hlen
  · exact move_keeps wf hv

/-- A sum that wraps around cuts readable bytes off the end of the vector. -/
theorem ensureWritableBytes_loses {len : Nat} {b' : Buffer} (h : b.ensureWritableBytes len = .ok b')
    (hlt : len < 2 ^ 64) (hlen : ¬ (b.writeIndex + len < 2 ^ 64 ∨ b.readIndex = b.writeIndex)) :
    b'.readable ≠ b.readable := by
  rw [not_or] at hlen
  have horder := wf.order
  have hin := wf.inside.resolve_right hlen.2
  have hbound := wf.bound
  obtain ⟨hspace, rfl | ⟨v, hw, hv, rfl⟩ | ⟨v, hv, rfl⟩⟩ := ensureWritableBytes_cases wf.order wf.small h
  · rw [wf.writableBytes hin] at hspace
    omega
  · obtain ⟨hl, -⟩ := length_resize hv
    have hwrap : sizeT (b.writeIndex + len : Nat) = b.writeIndex + len - 2 ^ 64 := by unfold sizeT; omega
    intro he
    have hcells := congrArg List.length he
    rw [wf.length_readable] at hcells
    unfold readable at hcells
    simp only [List.length_take, List.length_drop, hl, hwrap] at hcells
    omega
  · obtain ⟨wf', -⟩ := move_keeps wf hv
    have hspan : kCheapPrepend + (b.writeIndex - b.readIndex) ≤ v.length :=
      wf'.inside_of_lt (Nat.lt_add_of_pos_right (by omega))
    have hlength : v.length < 2 ^ 63 := wf'.bound
    rw [wf'.writableBytes hspan] at hspace
    simp only at hspace
    omega

/-! ## Taking bytes out -/

theorem retrieveAll_spec : WellFormed b.retrieveAll ∧ b.retrieveAll.readable = [] :=
  ⟨⟨le_refl _, le_refl _, .inr rfl, wf.bound, (by decide : 8 < 2 ^ 64)⟩, readable_nil rfl⟩

theorem retrieve_spec (len : Nat) : WellFormed (b.retrieve len) ∧ (b.retrieve len).readable = b.readable.drop len := by
  unfold retrieve
  split
  · rename_i hlt
    rw [wf.readableBytes] at hlt
    have hfront := wf.front
    have hsmall := wf.small
    rw [sizeT_natCast (by omega)]
    have horder : b.readIndex + len ≤ b.writeIndex := by omega
    refine ⟨⟨Nat.le_add_right_of_le hfront, horder, .inl (wf.inside_of_lt (by omega)), wf.bound, hsmall⟩, ?_⟩
    unfold readable
    rw [List.drop_take, List.drop_drop, Nat.sub_add_eq]
  · rename_i hge
    rw [wf.readableBytes, ← wf.length_readable] at hge
    rw [List.drop_eq_nil_of_le (Nat.le_of_not_lt hge)]
    exact retrieveAll_spec wf

theorem retrieveAsString_spec {len : Nat} {r : Buffer × List UInt8} (h : b.retrieveAsString len = .ok r) :
    r = (b.retrieve len, b.readable.take len) := by
  obtain ⟨_, hlen, h⟩ := bind_eq_ok.mp h
  obtain ⟨res, hres, h⟩ := bind_eq_ok.mp h
  cases h
  have hlen := check_eq_ok.mp hlen
  rw [wf.readableBytes] at hlen
  have horder := wf.order
  have hin : len = 0 ∨ b.readIndex + len ≤ b.buffer.length := by
    rcases wf.inside with h | h <;> omega
  rw [Vec.load_eq hin] at hres
  cases hres
  unfold readable
  rw [List.take_take, Nat.min_eq_left hlen]

/-! ## Putting bytes in -/

theorem commit_spec {data v : List UInt8} (hv : Vec.store b.buffer b.writeIndex data = .ok v) :
    let b' : Buffer := ⟨v, b.readIndex, sizeT (b.writeIndex + data.length : Nat)⟩
    WellFormed b' ∧ b'.readable = b.readable ++ data := by
  have hbound := wf.bound
  have horder := wf.order
  rcases Vec.store_le hv with rfl | hle
  · cases hv
    rw [List.append_nil, List.length_nil, Nat.add_zero, sizeT_natCast wf.small]
    exact ⟨wf, rfl⟩
  · have hl := Vec.length_store hv
    rw [Vec.store_eq hle] at hv
    rw [sizeT_natCast (by omega)]
    have hsum : b.readIndex ≤ b.writeIndex + data.length := by omega
    refine ⟨⟨wf.front, hsum, .inl (hl ▸ hle), hl ▸ hbound, by show b.writeIndex + data.length < 2 ^ 64; omega⟩, ?_⟩
    cases hv
    have hcells : (b.buffer.take b.writeIndex ++ data).length = b.writeIndex + data.length := by
      rw [List.length_append, List.length_take]; omega
    unfold readable
    rw [← List.drop_take, ← List.drop_take]
    simp only
    rw [List.take_left' hcells, List.drop_append_of_le_length (by rw [List.length_take]; omega)]

theorem append_span {data : List UInt8} {b' : Buffer} (h : b.append data = .ok b') :
    b'.writeIndex - b'.readIndex = b.writeIndex - b.readIndex := by
  obtain ⟨c, hc, h⟩ := bind_eq_ok.mp h
  obtain ⟨v, -, h⟩ := bind_eq_ok.mp h
  cases h
  have span := ensureWritableBytes_span wf hc
  exact span

theorem inside_of_full {data v : List UInt8} (hv : Vec.store b.buffer b.writeIndex data = .ok v)
    (hn : b.writableBytes ≤ data.length) : b.writeIndex ≤ b.buffer.length := by
  apply Nat.le_of_not_lt
  intro hlt
  have hsmall := wf.small
  have hw : 0 < b.writableBytes := by unfold Buffer.writableBytes sizeT; omega
  rcases Vec.store_le hv with rfl | hle
  · simp only [List.length_nil] at hn
    omega
  · omega

theorem readFd_keeps {data : List UInt8} {r : Buffer × Int × Option Int} (h : b.readFd (.ok data) = .ok r)
    (hn : data.length ≤ b.writableBytes) : WellFormed r.1 ∧ r.1.readable = b.readable ++ data := by
  obtain ⟨v, hv, h⟩ := bind_eq_ok.mp h
  rw [List.take_of_length_le hn] at hv
  split at h
  · cases h
    exact commit_spec wf hv
  · rename_i hge
    have hfull : data.length = b.writableBytes := by omega
    simp only [← hfull, List.drop_length, append_nil, ok_bind] at h
    cases h
    have hin := inside_of_full wf hv (Nat.le_of_eq hfull.symm)
    have hend : v.length = sizeT (b.writeIndex + data.length : Nat) := by
      have hbound := wf.bound
      rw [wf.writableBytes hin] at hfull
      rw [sizeT_natCast (by omega), Vec.length_store hv]
      omega
    rw [hend]
    exact commit_spec wf hv

theorem readFd_loses {data : List UInt8} {r : Buffer × Int × Option Int} (h : b.readFd (.ok data) = .ok r)
    (hn : b.writableBytes < data.length) :
    r.1.readable.length < (b.writeIndex - b.readIndex) + data.length := by
  obtain ⟨v, hv, h⟩ := bind_eq_ok.mp h
  rw [if_neg (Nat.not_lt.mpr (Nat.le_of_lt hn))] at h
  obtain ⟨b', hb', h⟩ := bind_eq_ok.mp h
  cases h
  have hin := inside_of_full wf hv (by rw [List.length_take]; omega)
  have hl := Vec.length_store hv
  have horder := wf.order
  have hbound := wf.bound
  have wf' : WellFormed ⟨v, b.readIndex, v.length⟩ :=
    ⟨wf.front, by show b.readIndex ≤ v.length; omega, .inl (le_refl _), hl ▸ hbound,
      by show v.length < 2 ^ 64; omega⟩
  have span := append_span wf' hb'
  have hle := length_readable_le b'
  rw [wf.writableBytes hin] at hn
  simp only at span ⊢
  omega

end

/-! ## One operation -/

/-- The operation loses nothing: it appends no byte, reads no more than there is
room for, and makes space without a sum that wraps around over readable bytes. -/
def Keeps (b : Buffer) : Op → Prop
  | .append data => data = []
  | .readFd (.ok data) => data.length ≤ b.writableBytes
  | .ensureWritableBytes len => b.writeIndex + len < 2 ^ 64 ∨ b.readIndex = b.writeIndex
  | _ => True

/-- An operation keeps the readable bytes equal to the queue exactly where it
loses nothing, and then keeps the indices in order. -/
theorem Op.run_spec {b b' : Buffer} {q : Fifo UInt8} {op : Op} (wf : WellFormed b) (hq : b.readable = q.content)
    (hfits : op.fits b = true) (h : op.run b = .ok b') :
    (b'.readable = (op.queue q).content ↔ Keeps b op) ∧ (Keeps b op → WellFormed b') := by
  have kept : WellFormed b' ∧ b'.readable = (op.queue q).content → Keeps b op →
      (b'.readable = (op.queue q).content ↔ Keeps b op) ∧ (Keeps b op → WellFormed b') := by
    intro h hk
    exact ⟨iff_of_true h.2 hk, fun _ => h.1⟩
  have shorter : ∀ {data : List UInt8}, b'.readable.length < (b.writeIndex - b.readIndex) + data.length →
      b'.readable ≠ (q.push data).content := by
    intro data hlt he
    rw [he, Fifo.content_push, ← hq, List.length_append, wf.length_readable] at hlt
    exact absurd hlt (Nat.lt_irrefl _)
  have pushed : ∀ data, b.readable ++ data = (q.push data).content := by simp [hq]
  have popped : ∀ n, b.readable.drop n = (q.pop n).content := by simp [hq]
  cases op with
  | append data =>
    by_cases hd : data = []
    · subst hd
      rw [Op.run, append_nil] at h
      cases h
      exact kept ⟨wf, by rw [← List.append_nil b.readable]; exact pushed []⟩ rfl
    · have hlt := length_readable_le b'
      rw [append_span wf h] at hlt
      exact ⟨iff_of_false (shorter (by have := List.length_pos_of_ne_nil hd; omega)) hd, fun hk => absurd hk hd⟩
  | readFd n =>
    obtain ⟨r, hr, h⟩ := bind_eq_ok.mp h
    cases h
    cases n with
    | error errno =>
      cases hr
      exact kept ⟨wf, hq⟩ trivial
    | ok data =>
      by_cases hn : data.length ≤ b.writableBytes
      · have hk := readFd_keeps wf hr hn
        exact kept ⟨hk.1, hk.2.trans (pushed data)⟩ hn
      · exact ⟨iff_of_false (shorter (readFd_loses wf hr (Nat.lt_of_not_le hn))) hn, fun hk => absurd hk hn⟩
  | ensureWritableBytes len =>
    by_cases hlen : b.writeIndex + len < 2 ^ 64 ∨ b.readIndex = b.writeIndex
    · have hk := ensureWritableBytes_keeps wf h hlen
      exact kept ⟨hk.1, hk.2.trans hq⟩ hlen
    · have hne := ensureWritableBytes_loses wf h (of_decide_eq_true hfits) hlen
      exact ⟨iff_of_false (fun he => hne (he.trans hq.symm)) hlen, fun hk => absurd hk hlen⟩
  | hasWriten data =>
    obtain ⟨v, hv, h⟩ := bind_eq_ok.mp h
    obtain ⟨_, -, h⟩ := bind_eq_ok.mp h
    cases h
    have hk := commit_spec wf hv
    exact kept ⟨hk.1, hk.2.trans (pushed data)⟩ trivial
  | retrieve len =>
    cases h
    have hk := retrieve_spec wf len
    exact kept ⟨hk.1, hk.2.trans (popped len)⟩ trivial
  | retrieveAll =>
    cases h
    have hk := retrieveAll_spec wf
    exact kept ⟨hk.1, hk.2.trans (Fifo.content_clear q).symm⟩ trivial
  | retrieveAsString len =>
    obtain ⟨r, hr, h⟩ := bind_eq_ok.mp h
    cases h
    cases retrieveAsString_spec wf hr
    have hk := retrieve_spec wf len
    exact kept ⟨hk.1, hk.2.trans (popped len)⟩ trivial
  | retrieveAllAsString =>
    obtain ⟨r, hr, h⟩ := bind_eq_ok.mp h
    cases h
    cases retrieveAsString_spec wf hr
    have hk := retrieve_spec wf b.readableBytes
    have hall : b.readable.drop b.readableBytes = [] := by
      rw [wf.readableBytes, ← wf.length_readable, List.drop_length]
    exact kept ⟨hk.1, (hk.2.trans hall).trans (Fifo.content_clear q).symm⟩ trivial

/-! ## Runs -/

variable {ι : Type*} [DecidableEq ι]

/-- Every buffer holds what was put into it, in order, less what was retrieved. -/
def IsFifo (s : State ι) : Prop := ∀ i, (s i).buf.readable = (s i).queue.content

def StepKeeps (s : State ι) : Act ι → Prop
  | .on i op => Keeps (s i).buf op
  | .swap _ _ => True

theorem forall_update {P : Tracked → Prop} {s : State ι} {i : ι} {x : Tracked} (h : ∀ j, P (s j)) :
    (∀ j, P (Function.update s i x j)) ↔ P x := by
  constructor
  · intro hall
    simpa using hall i
  · intro hx j
    by_cases hj : j = i
    · subst hj; simpa using hx
    · simpa [hj] using h j

theorem step_spec {s t : State ι} {a : Act ι} (wf : ∀ i, WellFormed (s i).buf) (hq : IsFifo s)
    (h : step s a = some (.ok t)) :
    (IsFifo t ↔ StepKeeps s a) ∧ (StepKeeps s a → ∀ i, WellFormed (t i).buf) := by
  cases a with
  | on i op =>
    simp only [step, Option.ite_none_right_eq_some, Option.some.injEq] at h
    obtain ⟨hfits, h⟩ := h
    obtain ⟨b', hb', rfl⟩ := map_eq_ok.mp h
    obtain ⟨hiff, hwf⟩ := Op.run_spec (wf i) (hq i) hfits hb'
    exact ⟨(forall_update (P := fun x => x.buf.readable = x.queue.content) hq).trans hiff,
      fun hk => (forall_update (P := fun x => WellFormed x.buf) wf).mpr (hwf hk)⟩
  | swap i j =>
    cases h
    have both : ∀ {P : Tracked → Prop}, (∀ k, P (s k)) →
        ∀ k, P (Function.update (Function.update s i (s j)) j (s i) k) :=
      fun hP => (forall_update ((forall_update hP).mpr (hP j))).mpr (hP i)
    exact ⟨iff_of_true (both (P := fun x => x.buf.readable = x.queue.content) hq) trivial,
      fun _ => both (P := fun x => WellFormed x.buf) wf⟩

/-- From any fresh buffers and along any run: **every buffer is a queue of bytes in
every state of the run if and only if every step of the run loses nothing**. -/
theorem fifo_iff {s₀ : State ι} (h₀ : (lts ι).init s₀) (tr : List (Act ι)) :
    (∀ tr' s, tr' <+: tr → (lts ι).Run s₀ tr' s → IsFifo s) ↔
      ∀ tr' s a t, tr' ++ [a] <+: tr → (lts ι).Run s₀ tr' s → (lts ι).step s a t → StepKeeps s a := by
  refine Lts.Run.always_iff (I := fun s => ∀ i, WellFormed (s i).buf) (fun s a t wf hq h => (step_spec wf hq h).1)
    (fun s a t wf hq hk h => (step_spec wf hq h).2 hk) ⟨fun i => ?_, fun i => ?_⟩ tr
  · obtain ⟨n, -, hc, -⟩ := h₀ i
    exact (create_wellFormed hc).1
  · obtain ⟨n, -, hc, hq⟩ := h₀ i
    rw [hq, (create_wellFormed hc).2, Fifo.content_empty]

def fresh (ι : Type*) : State ι := fun _ => ⟨⟨List.replicate 24 0, kCheapPrepend, kCheapPrepend⟩, .empty⟩

theorem init_fresh : (lts ι).init (fresh ι) := fun _ => ⟨16, by decide, rfl, rfl⟩

def commitSwapRetrieve : List (Act Bool) :=
  [.on true (.hasWriten [1, 2, 3]), .swap true false, .on false (.retrieveAsString 2)]

theorem fifo_commit_swap_retrieve : ∃ s, (lts Bool).Run (fresh Bool) commitSwapRetrieve s ∧ IsFifo s := by
  have hall := (fifo_iff init_fresh commitSwapRetrieve).mpr fun tr' s a t hpre _ _ => by
    have hmem : a ∈ commitSwapRetrieve :=
      hpre.subset (List.mem_append_right _ (List.mem_singleton_self a))
    simp only [commitSwapRetrieve, List.mem_cons, List.not_mem_nil, or_false] at hmem
    rcases hmem with rfl | rfl | rfl <;> trivial
  have hrun : (lts Bool).Run (fresh Bool) commitSwapRetrieve _ := .cons rfl (.cons rfl (.cons rfl (.nil _)))
  exact ⟨_, hrun, hall _ _ List.prefix_rfl hrun⟩

theorem appended_byte_lost : ¬ ∀ s, (lts Unit).Reachable s → IsFifo s := by
  intro hall
  let b : Buffer := ⟨(List.replicate 24 0).set 8 65, kCheapPrepend, kCheapPrepend⟩
  have hstep : (lts Unit).step (fresh Unit) (.on () (.append [65]))
      (Function.update (fresh Unit) () ⟨b, Fifo.empty.push [65]⟩) := rfl
  have h := hall _ ((Lts.Reachable.init init_fresh).step hstep) ()
  rw [Function.update_self] at h
  exact absurd h (by decide)

end MyLearning.Buffer
