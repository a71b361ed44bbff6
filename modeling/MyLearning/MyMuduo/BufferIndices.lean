import MyLearning.MyMuduo.BufferFifo

/-!
# The indices of a buffer stay in order

While no size reaches `2 ^ 63` no sum of sizes wraps around. Every operation then keeps
`readIndex` and `writeIndex` in order inside the vector and passes its assertions; the
vector can refuse to grow past its maximal size, and nothing else fails.
-/

namespace MyLearning.Buffer

structure InOrder (b : Buffer) : Prop where
  front : kCheapPrepend ≤ b.readIndex
  order : b.readIndex ≤ b.writeIndex
  inside : b.writeIndex ≤ b.buffer.length
  bound : b.buffer.length < 2 ^ 63

theorem resize_yields (v : List UInt8) (n : Nat) :
    Yields .lengthError (fun v' => v'.length = n ∧ n < 2 ^ 63) (Vec.resize v n 0) := by
  by_cases h : n ≤ Vec.maxSize
  · have hr : Vec.resize v n 0 = .ok (v.take n ++ List.replicate (n - v.length) 0) := if_pos h
    rw [hr]
    exact .ok (length_resize hr)
  · exact .inr (if_neg h)

theorem create_yields {n : Nat} (hn : n < 2 ^ 63) : Yields .lengthError InOrder (create n) := by
  have hk : sizeT (kCheapPrepend + n : Nat) = kCheapPrepend + n := sizeT_natCast (by unfold kCheapPrepend; omega)
  unfold create
  rw [hk]
  refine (resize_yields [] _).bind ?_
  intro v ⟨hl, hb⟩
  have hw : Buffer.writableBytes ⟨v, kCheapPrepend, kCheapPrepend⟩ = n := by
    unfold Buffer.writableBytes
    simp only
    rw [sizeT_sub (by omega) (by omega)]
    omega
  refine .check_bind hw (.check_bind rfl (.check_bind rfl (.ok ?_)))
  exact ⟨le_refl _, le_refl _, by show kCheapPrepend ≤ v.length; omega, hl ▸ hb⟩

theorem size_fits {len : Nat} (hlen : len < 2 ^ 63) : len + kCheapPrepend < 2 ^ 64 := by
  unfold kCheapPrepend; omega

section
variable {b : Buffer} (o : InOrder b)
include o

theorem InOrder.wellFormed : WellFormed b where
  front := o.front
  order := o.order
  inside := .inl o.inside
  bound := o.bound
  small := by
    have := o.inside
    have := o.bound
    omega

theorem InOrder.writableBytes : b.writableBytes = b.buffer.length - b.writeIndex :=
  o.wellFormed.writableBytes o.inside

theorem InOrder.readableBytes : b.readableBytes = b.writeIndex - b.readIndex := o.wellFormed.readableBytes

/-! ## Making space -/

theorem InOrder.movable {len : Nat} (hlen : len + kCheapPrepend < 2 ^ 64) (hw : b.writableBytes < len)
    (hmove : ¬ sizeT (b.writableBytes + b.prependableBytes : Nat) < sizeT (len + kCheapPrepend : Nat)) :
    kCheapPrepend < b.readIndex := by
  have horder := o.order
  have hin := o.inside
  have hbound := o.bound
  unfold kCheapPrepend at hlen hmove ⊢
  unfold prependableBytes at hmove
  rw [o.writableBytes] at hw hmove
  rw [sizeT_natCast (by omega), sizeT_natCast (by omega)] at hmove
  omega

theorem move_yields : Yields .lengthError (fun v => v.length = b.buffer.length)
    (Vec.copy b.buffer b.readIndex kCheapPrepend (b.writeIndex - b.readIndex)) := by
  have horder := o.order
  have hin := o.inside
  rw [Vec.copy_eq o.front (by omega)]
  apply Yields.ok
  simp only [List.length_append, List.length_take, List.length_drop]
  have hfront := o.front
  omega

theorem makeSpace_yields {len : Nat} (hlen : len + kCheapPrepend < 2 ^ 64) (hsum : b.writeIndex + len < 2 ^ 64)
    (hw : b.writableBytes < len) :
    Yields .lengthError (fun b' => InOrder b' ∧ len ≤ b'.writableBytes) (b.makeSpace len) := by
  have hfront := o.front
  have horder := o.order
  have hin := o.inside
  have hbound := o.bound
  have hwritable := o.writableBytes
  unfold makeSpace
  split
  · rw [sizeT_natCast (by omega)]
    refine (resize_yields _ _).bind ?_
    intro v hv
    obtain ⟨hl, hb⟩ := hv
    have o' : InOrder { b with buffer := v } :=
      ⟨hfront, horder, by show b.writeIndex ≤ v.length; omega, by show v.length < 2 ^ 63; omega⟩
    refine .ok ⟨o', ?_⟩
    rw [o'.writableBytes]
    show len ≤ v.length - b.writeIndex
    omega
  · rename_i hmove
    have hlt := o.movable hlen hw hmove
    refine .check_bind hlt ((move_yields o).bind ?_)
    intro v hl
    dsimp only
    rw [o.readableBytes]
    have hspan : sizeT (kCheapPrepend + (b.writeIndex - b.readIndex) : Nat) = kCheapPrepend + (b.writeIndex - b.readIndex) :=
      sizeT_natCast (by omega)
    rw [hspan]
    have o' : InOrder ⟨v, kCheapPrepend, kCheapPrepend + (b.writeIndex - b.readIndex)⟩ :=
      ⟨le_refl _, Nat.le_add_right .., by show kCheapPrepend + (b.writeIndex - b.readIndex) ≤ v.length; omega,
        by show v.length < 2 ^ 63; omega⟩
    refine .check_bind ?_ (.ok ⟨o', ?_⟩)
    · rw [o'.readableBytes]
      show b.writeIndex - b.readIndex = kCheapPrepend + (b.writeIndex - b.readIndex) - kCheapPrepend
      omega
    · rw [o'.writableBytes]
      show len ≤ v.length - (kCheapPrepend + (b.writeIndex - b.readIndex))
      unfold prependableBytes at hmove
      unfold kCheapPrepend at hlen hlt hmove ⊢
      rw [sizeT_natCast (by omega), sizeT_natCast (by omega)] at hmove
      omega

theorem ensureWritableBytes_yields {len : Nat} (hlen : len + kCheapPrepend < 2 ^ 64)
    (hsum : b.writeIndex + len < 2 ^ 64) :
    Yields .lengthError (fun b' => InOrder b' ∧ len ≤ b'.writableBytes) (b.ensureWritableBytes len) := by
  unfold ensureWritableBytes
  have hspace : Yields .lengthError (fun b' => InOrder b' ∧ len ≤ b'.writableBytes)
      (if b.writableBytes < len then b.makeSpace len else .ok b : Except Fault Buffer) := by
    split
    · rename_i hw
      exact makeSpace_yields o hlen hsum hw
    · rename_i hw
      exact .ok ⟨o, not_lt.mp hw⟩
  refine hspace.bind ?_
  intro b' ⟨o', hle⟩
  exact .check_bind hle (.ok ⟨o', hle⟩)

theorem InOrder.sum_fits {len : Nat} (hlen : len < 2 ^ 63) : b.writeIndex + len < 2 ^ 64 := by
  have hin := o.inside
  have hbound := o.bound
  omega

/-! ## The operations -/

theorem store_yields {data : List UInt8} (h : data.length ≤ b.writableBytes) :
    Yields .lengthError (fun v => InOrder { b with buffer := v } ∧ v.length = b.buffer.length)
      (Vec.store b.buffer b.writeIndex data) := by
  have hin := o.inside
  rw [o.writableBytes] at h
  have hs := Vec.store_eq (show b.writeIndex + data.length ≤ b.buffer.length by omega)
  have hl := Vec.length_store hs
  rw [hs]
  exact .ok ⟨⟨o.front, o.order, hl ▸ o.inside, hl ▸ o.bound⟩, hl⟩

theorem append_yields {data : List UInt8} (h : data.length < 2 ^ 63) : Yields .lengthError InOrder (b.append data) := by
  unfold append
  refine (ensureWritableBytes_yields o (size_fits h) (o.sum_fits h)).bind ?_
  intro b' ⟨o', hle⟩
  refine (store_yields o' hle).bind ?_
  intro v ⟨ov, _⟩
  exact .ok ov

theorem commit_inOrder {v : List UInt8} (hl : v.length = b.buffer.length) {n : Nat} (h : n ≤ b.writableBytes) :
    InOrder ⟨v, b.readIndex, sizeT (b.writeIndex + n : Nat)⟩ := by
  have hin := o.inside
  have hbound := o.bound
  have horder := o.order
  rw [o.writableBytes] at h
  rw [sizeT_natCast (by omega)]
  exact ⟨o.front, by show b.readIndex ≤ b.writeIndex + n; omega, by show b.writeIndex + n ≤ v.length; omega,
    by show v.length < 2 ^ 63; omega⟩

theorem atEnd_inOrder : InOrder { b with writeIndex := b.buffer.length } :=
  ⟨o.front, o.order.trans o.inside, le_refl _, o.bound⟩

theorem readFd_yields (n : Readv) (h : ∀ data, n = .ok data → data.length < 2 ^ 63) :
    Yields .lengthError (fun r => InOrder r.1) (b.readFd n) := by
  cases n with
  | error errno => exact .ok o
  | ok data =>
    have hdata := h data rfl
    unfold readFd
    refine (store_yields o (List.length_take_le b.writableBytes data)).bind ?_
    intro v ⟨ov, hl⟩
    dsimp only
    split
    · rename_i hlt
      exact .ok (commit_inOrder o hl (le_of_lt hlt))
    · have hrest : (data.drop b.writableBytes).length < 2 ^ 63 := by
        rw [List.length_drop]; omega
      refine (append_yields (atEnd_inOrder ov) hrest).bind ?_
      intro b' o'
      exact .ok o'

theorem retrieve_inOrder (len : Nat) : InOrder (b.retrieve len) := by
  have hfront := o.front
  have hin := o.inside
  have hbound := o.bound
  have horder := o.order
  unfold retrieve
  split
  · rename_i hlt
    rw [o.readableBytes] at hlt
    rw [sizeT_natCast (by omega)]
    exact ⟨Nat.le_add_right_of_le hfront, by show b.readIndex + len ≤ b.writeIndex; omega, hin, hbound⟩
  · exact ⟨le_refl _, le_refl _, hfront.trans (horder.trans hin), hbound⟩

theorem retrieveAsString_yields {len : Nat} (h : len ≤ b.readableBytes) :
    Yields .lengthError (fun r => InOrder r.1) (b.retrieveAsString len) := by
  unfold retrieveAsString
  have hin := o.inside
  have horder := o.order
  have hlen := h
  rw [o.readableBytes] at hlen
  rw [Vec.load_eq (.inr (by omega))]
  exact .check_bind h (.ok (retrieve_inOrder o len))

end

/-- What the caller of an operation answers for: sizes below `2 ^ 63`, and the bounds that
`hasWriten` and `retrieveAsString` assert. -/
def Op.Asked (b : Buffer) : Op → Prop
  | append data => data.length < 2 ^ 63
  | readFd (.ok data) => data.length < 2 ^ 63
  | readFd (.error _) | retrieveAll | retrieveAllAsString => True
  | ensureWritableBytes len | retrieve len => len < 2 ^ 63
  | hasWriten data => data.length ≤ b.writableBytes
  | retrieveAsString len => len ≤ b.readableBytes

theorem Op.run_yields {b : Buffer} (o : InOrder b) {op : Op} (h : op.Asked b) :
    Yields .lengthError InOrder (op.run b) := by
  cases op with
  | append data => exact append_yields o h
  | readFd n =>
    refine (readFd_yields o n ?_).bind fun r hr => .ok hr
    intro data hn
    subst hn
    exact h
  | ensureWritableBytes len =>
    rcases ensureWritableBytes_yields o (size_fits h) (o.sum_fits h) with ⟨b', hb, o', -⟩ | he
    · exact .inl ⟨b', hb, o'⟩
    · exact .inr he
  | hasWriten data =>
    refine (store_yields o h).bind ?_
    intro v ⟨ov, hl⟩
    have hw : Buffer.writableBytes { b with buffer := v } = b.writableBytes := by
      rw [ov.writableBytes, o.writableBytes]
      simp only [hl]
    exact .check_bind (hw ▸ h) (.ok (commit_inOrder o hl h))
  | retrieve len => exact .ok (retrieve_inOrder o len)
  | retrieveAll => exact .ok ⟨le_refl _, le_refl _, o.front.trans (o.order.trans o.inside), o.bound⟩
  | retrieveAsString len => exact (retrieveAsString_yields o h).bind fun r hr => .ok hr
  | retrieveAllAsString => exact (retrieveAsString_yields o (le_refl _)).bind fun r hr => .ok hr

/-! ## Runs -/

section
variable {ι : Type*} [DecidableEq ι]

def Act.Asked (s : State ι) : Act ι → Prop
  | .on i op => op.Asked (s i).buf
  | .swap _ _ => True

def askedLts (ι : Type*) [DecidableEq ι] : Lts (State ι) (Act ι) where
  init s := ∀ i, ∃ initialSize < 2 ^ 63, create initialSize = .ok (s i).buf ∧ (s i).queue = .empty
  step s a t := a.Asked s ∧ step s a = some (.ok t)

theorem step_yields {s : State ι} (o : ∀ i, InOrder (s i).buf) {a : Act ι} (ha : a.Asked s)
    {r : Except Fault (State ι)} (h : step s a = some r) : Yields .lengthError (fun t => ∀ i, InOrder (t i).buf) r := by
  cases a with
  | on i op =>
    simp only [step, Option.ite_none_right_eq_some, Option.some.injEq] at h
    obtain ⟨-, rfl⟩ := h
    rcases Op.run_yields (o i) ha with ⟨b', hb, o'⟩ | he
    · rw [hb]
      exact .ok ((forall_update (P := fun x => InOrder x.buf) o).mpr o')
    · rw [he]; exact .inr rfl
  | swap i j =>
    cases h
    exact .ok ((forall_update (P := fun x => InOrder x.buf)
      ((forall_update (P := fun x => InOrder x.buf) o).mpr (o j))).mpr (o i))

theorem reachable_inOrder {s : State ι} (h : (askedLts ι).Reachable s) (i : ι) : InOrder (s i).buf := by
  refine Lts.Reachable.invariant (I := fun s => ∀ i, InOrder (s i).buf) ?_ ?_ h i
  · intro s h₀ i
    obtain ⟨n, hn, hc, -⟩ := h₀ i
    exact (create_yields hn).post hc
  · intro s a t o hs
    exact (step_yields o hs.1 hs.2).post rfl

/-- **The indices.** In every reachable state the indices are in order inside the vector; the
only failure left to an operation is the vector's refusal to grow, so no assertion fails; and
wherever `makeSpace` moves the readable bytes, called on the buffer or on the buffer with
`writeIndex` at its end, there is room in front of them. -/
theorem indices_in_order {s : State ι} (h : (askedLts ι).Reachable s) :
    (∀ i, kCheapPrepend ≤ (s i).buf.readIndex ∧ (s i).buf.readIndex ≤ (s i).buf.writeIndex ∧
      (s i).buf.writeIndex ≤ (s i).buf.buffer.length) ∧
    (∀ a f, a.Asked s → step s a = some (.error f) → f = .lengthError) ∧
    ∀ i b len, (b = (s i).buf ∨ b = { (s i).buf with writeIndex := (s i).buf.buffer.length }) → len < 2 ^ 63 →
      b.writableBytes < len →
      ¬ sizeT (b.writableBytes + b.prependableBytes : Nat) < sizeT (len + kCheapPrepend : Nat) →
      kCheapPrepend < b.readIndex := by
  have o := reachable_inOrder h
  refine ⟨fun i => ⟨(o i).front, (o i).order, (o i).inside⟩, ?_, ?_⟩
  · intro a f ha hs
    exact (step_yields o ha hs).error rfl
  · intro i b len hb hlen hw hmove
    have ob : InOrder b := by
      rcases hb with rfl | rfl
      · exact o i
      · exact atEnd_inOrder (o i)
    exact ob.movable (size_fits hlen) hw hmove

end

/-- Sixteen bytes are written, twelve are retrieved, and ten more are asked for. -/
theorem indices_in_order_moved : ∃ s, (askedLts Unit).Reachable s ∧
    (s ()).buf.writableBytes = 12 ∧ kCheapPrepend ≤ (s ()).buf.readIndex ∧
      (s ()).buf.readIndex ≤ (s ()).buf.writeIndex ∧ (s ()).buf.writeIndex ≤ (s ()).buf.buffer.length := by
  have h₀ : (askedLts Unit).init (fresh Unit) := fun _ => ⟨16, by decide, rfl, rfl⟩
  have hrun : (askedLts Unit).Run (fresh Unit)
      [.on () (.hasWriten (List.replicate 16 1)), .on () (.retrieve 12), .on () (.ensureWritableBytes 10)] _ :=
    .cons ⟨by show 16 ≤ _; decide, rfl⟩ (.cons ⟨by show 12 < _; decide, rfl⟩
      (.cons ⟨by show 10 < _; decide, rfl⟩ (.nil _)))
  have hreach : (askedLts Unit).Reachable _ := ⟨_, _, h₀, hrun⟩
  exact ⟨_, hreach, by decide, (indices_in_order hreach).1 ()⟩

end MyLearning.Buffer
