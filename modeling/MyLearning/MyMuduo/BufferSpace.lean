import MyLearning.MyMuduo.BufferIndices

/-!
# Room behind the readable bytes

A buffer can be asked for any 64-bit size, and a size that wraps around leaves
`writeIndex` behind the end of the vector. Then `writableBytes` is a number close to
`2 ^ 64`, so no buffer in use asks for more. While the sum with `writeIndex` does not
wrap around, making space changes no readable byte, wherever `writeIndex` is.
-/

namespace MyLearning.Buffer

structure Bounded (b : Buffer) : Prop where
  front : kCheapPrepend ≤ b.readIndex
  order : b.readIndex ≤ b.writeIndex
  small : b.writeIndex < 2 ^ 63
  bound : b.buffer.length < 2 ^ 63

theorem create_bounded {n : Nat} {b : Buffer} (h : create n = .ok b) : Bounded b := by
  have wf := (create_wellFormed h).1
  obtain ⟨v, hv, h⟩ := bind_eq_ok.mp h
  obtain ⟨_, -, h⟩ := bind_eq_ok.mp h
  obtain ⟨_, -, h⟩ := bind_eq_ok.mp h
  obtain ⟨_, -, h⟩ := bind_eq_ok.mp h
  cases h
  exact ⟨wf.front, wf.order, by show 8 < 2 ^ 63; simp, wf.bound⟩

section
variable {b : Buffer} (bd : Bounded b)
include bd

theorem Bounded.inOrder (hin : b.writeIndex ≤ b.buffer.length) : InOrder b := ⟨bd.front, bd.order, hin, bd.bound⟩

theorem Bounded.readableBytes : b.readableBytes = b.writeIndex - b.readIndex := by
  have hsmall := bd.small
  exact sizeT_sub bd.order (by omega)

theorem Bounded.writableBytes_outside (h : b.buffer.length < b.writeIndex) :
    b.writableBytes = 2 ^ 64 - (b.writeIndex - b.buffer.length) := by
  have hsmall := bd.small
  unfold Buffer.writableBytes sizeT
  omega

/-! ## The operations -/

theorem ensureWritableBytes_bounded {len : Nat} {b' : Buffer} (h : b.ensureWritableBytes len = .ok b') :
    Bounded b' := by
  have hfront := bd.front
  have horder := bd.order
  have hsmall := bd.small
  obtain ⟨-, rfl | ⟨v, -, hv, rfl⟩ | ⟨v, hv, rfl⟩⟩ := ensureWritableBytes_cases horder (by omega) h
  · exact bd
  · have hl := length_resize hv
    exact ⟨hfront, horder, hsmall, by show v.length < 2 ^ 63; omega⟩
  · have hl := Vec.length_copy hv
    refine ⟨le_refl _, Nat.le_add_right .., ?_, hl ▸ bd.bound⟩
    show kCheapPrepend + (b.writeIndex - b.readIndex) < 2 ^ 63
    omega

theorem commit_bounded {data v : List UInt8} (hv : Vec.store b.buffer b.writeIndex data = .ok v) :
    Bounded ⟨v, b.readIndex, sizeT (b.writeIndex + data.length : Nat)⟩ := by
  have horder := bd.order
  have hsmall := bd.small
  have hbound := bd.bound
  have hl := Vec.length_store hv
  rcases Vec.store_le hv with rfl | hle
  · cases hv
    rw [List.length_nil, Nat.add_zero, sizeT_natCast (by omega)]
    exact bd
  · rw [sizeT_natCast (by omega)]
    exact ⟨bd.front, by show b.readIndex ≤ b.writeIndex + data.length; omega,
      by show b.writeIndex + data.length < 2 ^ 63; omega, hl ▸ hbound⟩

theorem append_bounded {data : List UInt8} {b' : Buffer} (h : b.append data = .ok b') : Bounded b' := by
  obtain ⟨c, hc, h⟩ := bind_eq_ok.mp h
  obtain ⟨v, hv, h⟩ := bind_eq_ok.mp h
  cases h
  have bc := ensureWritableBytes_bounded bd hc
  have hl := Vec.length_store hv
  exact ⟨bc.front, bc.order, bc.small, hl ▸ bc.bound⟩

theorem Bounded.inside_of_read {n : Nat} (hn : n < 2 ^ 63) (hw : b.writableBytes ≤ n) :
    b.writeIndex ≤ b.buffer.length := by
  by_contra hout
  -- behind the end there are more writable bytes than `readv` can report
  rw [bd.writableBytes_outside (not_le.mp hout)] at hw
  have hsmall := bd.small
  omega

theorem readFd_bounded {n : Readv} (hfits : (Op.readFd n).fits b = true) {r : Buffer × Int × Option Int}
    (h : b.readFd n = .ok r) : Bounded r.1 := by
  cases n with
  | error errno => cases h; exact bd
  | ok data =>
    obtain ⟨-, hdata⟩ := of_decide_eq_true hfits
    obtain ⟨v, hv, h⟩ := bind_eq_ok.mp h
    split at h
    · rename_i hlt
      cases h
      rw [List.take_of_length_le (le_of_lt hlt)] at hv
      exact commit_bounded bd hv
    · rename_i hge
      obtain ⟨b', hb', h⟩ := bind_eq_ok.mp h
      cases h
      have hin := bd.inside_of_read hdata (not_lt.mp hge)
      have hl := Vec.length_store hv
      have horder := bd.order
      have hbound := bd.bound
      have bend : Bounded ⟨v, b.readIndex, v.length⟩ :=
        ⟨bd.front, by show b.readIndex ≤ v.length; omega, hl ▸ hbound, hl ▸ hbound⟩
      exact append_bounded bend hb'

theorem retrieveAll_bounded : Bounded b.retrieveAll := ⟨le_refl _, le_refl _, by show 8 < 2 ^ 63; simp, bd.bound⟩

theorem retrieve_bounded (len : Nat) : Bounded (b.retrieve len) := by
  unfold retrieve
  split
  · rename_i hlt
    have hfront := bd.front
    have hsmall := bd.small
    rw [bd.readableBytes] at hlt
    rw [sizeT_natCast (by omega)]
    exact ⟨Nat.le_add_right_of_le hfront, by show b.readIndex + len ≤ b.writeIndex; omega, hsmall, bd.bound⟩
  · exact retrieveAll_bounded bd

theorem retrieveAsString_bounded {len : Nat} {r : Buffer × List UInt8} (h : b.retrieveAsString len = .ok r) :
    Bounded r.1 := by
  obtain ⟨_, -, h⟩ := bind_eq_ok.mp h
  obtain ⟨res, -, h⟩ := bind_eq_ok.mp h
  cases h
  exact retrieve_bounded bd len

theorem Op.run_bounded {op : Op} (hfits : op.fits b = true) {b' : Buffer} (h : op.run b = .ok b') : Bounded b' := by
  cases op with
  | append data => exact append_bounded bd h
  | readFd n =>
    obtain ⟨r, hr, h⟩ := bind_eq_ok.mp h
    cases h
    exact readFd_bounded bd hfits hr
  | ensureWritableBytes len => exact ensureWritableBytes_bounded bd h
  | hasWriten data =>
    obtain ⟨v, hv, h⟩ := bind_eq_ok.mp h
    obtain ⟨_, -, h⟩ := bind_eq_ok.mp h
    cases h
    exact commit_bounded bd hv
  | retrieve len => cases h; exact retrieve_bounded bd len
  | retrieveAll => cases h; exact retrieveAll_bounded bd
  | retrieveAsString len =>
    obtain ⟨r, hr, h⟩ := bind_eq_ok.mp h
    cases h
    exact retrieveAsString_bounded bd hr
  | retrieveAllAsString =>
    obtain ⟨r, hr, h⟩ := bind_eq_ok.mp h
    cases h
    exact retrieveAsString_bounded bd hr

end

/-! ## Making space -/

theorem ensureWritableBytes_enough {b : Buffer} {len : Nat} (h : len ≤ b.writableBytes) : b.ensureWritableBytes len = .ok b := by
  unfold ensureWritableBytes
  rw [if_neg (not_lt.mpr h), ok_bind, check_pos h]
  rfl

theorem ensureWritableBytes_refused {b : Buffer} {len : Nat} (h : b.ensureWritableBytes len = .error .lengthError) :
    Vec.maxSize < sizeT (b.writeIndex + len : Nat) := by
  rcases bind_eq_error.mp h with h | ⟨c, -, h⟩
  · split at h
    · unfold makeSpace at h
      split at h
      · rcases bind_eq_error.mp h with h | ⟨v, -, h⟩
        · exact Vec.resize_error h
        · cases h
      · rcases bind_eq_error.mp h with h | ⟨_, -, h⟩
        · cases check_error h
        · rcases bind_eq_error.mp h with h | ⟨v, -, h⟩
          · cases Vec.copy_error h
          · rcases bind_eq_error.mp h with h | ⟨_, -, h⟩
            · cases check_error h
            · cases h
    · cases h
  · rcases bind_eq_error.mp h with h | ⟨_, -, h⟩
    · cases check_error h
    · cases h

theorem ensureWritableBytes_makes_room {b : Buffer} (bd : Bounded b) {len : Nat}
    (hlen : b.writeIndex + len + kCheapPrepend < 2 ^ 64) :
    (∃ b', b.ensureWritableBytes len = .ok b' ∧ b'.readable = b.readable ∧ len ≤ b'.writableBytes) ∨
      (Vec.maxSize < b.writeIndex + len ∧ b.ensureWritableBytes len = .error .lengthError) := by
  have hsum : b.writeIndex + len < 2 ^ 64 := by omega
  by_cases hin : b.writeIndex ≤ b.buffer.length
  · have o := bd.inOrder hin
    rcases ensureWritableBytes_yields o (by omega) hsum with ⟨b', hb', -, hroom⟩ | he
    · exact .inl ⟨b', hb', (ensureWritableBytes_keeps o.wellFormed hb' (.inl hsum)).2, hroom⟩
    · have hmax := ensureWritableBytes_refused he
      rw [sizeT_natCast hsum] at hmax
      exact .inr ⟨hmax, he⟩
  · -- `writeIndex` is behind the end: the unsigned difference wraps around, and there seems to be room
    have hroom : len ≤ b.writableBytes := by
      rw [bd.writableBytes_outside (not_le.mp hin)]
      unfold kCheapPrepend at hlen
      omega
    exact .inl ⟨b, ensureWritableBytes_enough hroom, rfl, hroom⟩

/-! ## Reading from a descriptor -/

def FitsBehind (b : Buffer) (data : List UInt8) : Prop := data = [] ∨ b.writeIndex + data.length ≤ b.buffer.length

theorem FitsBehind.writable {b : Buffer} (bd : Bounded b) {data : List UInt8} (h : FitsBehind b data) :
    data.length ≤ b.writableBytes := by
  rcases h with rfl | h
  · exact Nat.zero_le _
  · rw [(bd.inOrder (by omega)).writableBytes]
    omega

theorem readFd_fits {b : Buffer} (bd : Bounded b) {data : List UInt8} (hdata : data.length < 2 ^ 63)
    (h : FitsBehind b data) : ∃ v, Vec.store b.buffer b.writeIndex data = .ok v ∧
      b.readFd (.ok data) =
        .ok (⟨v, b.readIndex, sizeT (b.writeIndex + data.length : Nat)⟩, data.length, none) := by
  have hw := h.writable bd
  have hstore : ∃ v, Vec.store b.buffer b.writeIndex data = .ok v := by
    rcases h with rfl | h
    · exact ⟨_, rfl⟩
    · exact ⟨_, Vec.store_eq h⟩
  obtain ⟨v, hv⟩ := hstore
  refine ⟨v, hv, ?_⟩
  simp only [readFd]
  rw [List.take_of_length_le hw, hv, ok_bind]
  by_cases hlt : data.length < b.writableBytes
  · rw [if_pos hlt]
    rfl
  · rw [if_neg hlt]
    have hin := bd.inside_of_read hdata (not_lt.mp hlt)
    have hend : v.length = sizeT (b.writeIndex + data.length : Nat) := by
      have hbound := bd.bound
      rw [(bd.inOrder hin).writableBytes] at hw hlt
      rw [sizeT_natCast (by omega), Vec.length_store hv]
      omega
    rw [List.drop_eq_nil_of_le hw, append_nil, ok_bind, ← hend]
    rfl

theorem readFd_fits_keeps {b : Buffer} (bd : Bounded b) {data v : List UInt8} (h : FitsBehind b data)
    (hv : Vec.store b.buffer b.writeIndex data = .ok v) :
    Buffer.readable ⟨v, b.readIndex, sizeT (b.writeIndex + data.length : Nat)⟩ = b.readable ++ data := by
  rcases h with rfl | h
  · have hsmall := bd.small
    cases hv
    rw [List.length_nil, Nat.add_zero, sizeT_natCast (by omega), List.append_nil]
  · exact (commit_spec (bd.inOrder (by omega)).wellFormed hv).2

theorem readFd_overflows {b : Buffer} (bd : Bounded b) {data : List UInt8} (hdata : data.length < 2 ^ 63)
    (h : ¬ FitsBehind b data) {r : Buffer × Int × Option Int} (hr : b.readFd (.ok data) = .ok r) :
    r.1.readable ≠ b.readable ++ data := by
  have hne : data ≠ [] := fun he => h (.inl he)
  have hout : ¬ b.writeIndex + data.length ≤ b.buffer.length := fun hle => h (.inr hle)
  by_cases hin : b.writeIndex ≤ b.buffer.length
  · have o := bd.inOrder hin
    intro he
    have hlt := readFd_loses o.wellFormed hr (by rw [o.writableBytes]; omega)
    rw [he, List.length_append, o.wellFormed.length_readable] at hlt
    exact absurd hlt (Nat.lt_irrefl _)
  · have hroom : data.length < b.writableBytes := not_le.mp fun hle => hin (bd.inside_of_read hdata hle)
    obtain ⟨v, hv, -⟩ := bind_eq_ok.mp hr
    rw [List.take_of_length_le (le_of_lt hroom)] at hv
    exact absurd (Vec.store_le hv) h

/-! ## Runs -/

section
variable {ι : Type*} [DecidableEq ι]

theorem step_bounded {s t : State ι} (bd : ∀ i, Bounded (s i).buf) {a : Act ι} (h : step s a = some (.ok t)) :
    ∀ i, Bounded (t i).buf := by
  cases a with
  | on i op =>
    simp only [step, Option.ite_none_right_eq_some, Option.some.injEq] at h
    obtain ⟨hfits, h⟩ := h
    obtain ⟨b', hb', rfl⟩ := map_eq_ok.mp h
    exact (forall_update (P := fun x => Bounded x.buf) bd).mpr (Op.run_bounded (bd i) hfits hb')
  | swap i j =>
    cases h
    exact (forall_update (P := fun x => Bounded x.buf)
      ((forall_update (P := fun x => Bounded x.buf) bd).mpr (bd j))).mpr (bd i)

theorem reachable_bounded {s : State ι} (h : (lts ι).Reachable s) (i : ι) : Bounded (s i).buf := by
  refine Lts.Reachable.invariant (I := fun s => ∀ i, Bounded (s i).buf) ?_ ?_ h i
  · intro s h₀ i
    obtain ⟨n, -, hc, -⟩ := h₀ i
    exact create_bounded hc
  · intro s a t bd hs
    exact step_bounded bd hs

/-- **Making space.** In every reachable state, whether the vector grows or its bytes move to the
front, no readable byte changes and there is room for `len` bytes. Only a vector that would
have to grow past its maximal size refuses. -/
theorem making_space_keeps {s : State ι} (h : (lts ι).Reachable s) (i : ι) {len : Nat}
    (hlen : (s i).buf.writeIndex + len + kCheapPrepend < 2 ^ 64) :
    (∃ b', (s i).buf.ensureWritableBytes len = .ok b' ∧ b'.readable = (s i).buf.readable ∧ len ≤ b'.writableBytes) ∨
      (Vec.maxSize < (s i).buf.writeIndex + len ∧ (s i).buf.ensureWritableBytes len = .error .lengthError) :=
  ensureWritableBytes_makes_room (reachable_bounded h i) hlen

/-- Sixteen bytes are written and six retrieved: the ten left move by six places, over themselves. -/
theorem making_space_keeps_overlapping : ∃ s, (lts Unit).Reachable s ∧ (s ()).buf.readIndex = 14 ∧
    (s ()).buf.writeIndex = 24 ∧ ((∃ b', (s ()).buf.ensureWritableBytes 6 = .ok b' ∧
      b'.readable = (s ()).buf.readable ∧ 6 ≤ b'.writableBytes) ∨
      (Vec.maxSize < (s ()).buf.writeIndex + 6 ∧ (s ()).buf.ensureWritableBytes 6 = .error .lengthError)) := by
  have hrun : (lts Unit).Run (fresh Unit)
      [.on () (.hasWriten (List.replicate 16 1)), .on () (.retrieve 6)] _ := .cons rfl (.cons rfl (.nil _))
  have hreach : (lts Unit).Reachable _ := ⟨_, _, init_fresh, hrun⟩
  exact ⟨_, hreach, rfl, rfl, making_space_keeps hreach () (by decide)⟩

/-- **Reading.** In every reachable state a failed `readv` leaves the buffer as it is and reports its
error; and the bytes of one that succeeds are behind the old content, with their number
returned, if and only if they fit behind `writeIndex`. -/
theorem readFd_appends_iff {s : State ι} (h : (lts ι).Reachable s) (i : ι) :
    (∀ errno, (s i).buf.readFd (.error errno) = .ok ((s i).buf, -1, some errno)) ∧
    ∀ data, (Op.readFd (.ok data)).fits (s i).buf = true →
      ((∃ b', (s i).buf.readFd (.ok data) = .ok (b', data.length, none) ∧ b'.readable = (s i).buf.readable ++ data) ↔
        FitsBehind (s i).buf data) := by
  have bd := reachable_bounded h i
  refine ⟨fun errno => rfl, ?_⟩
  intro data hfits
  obtain ⟨-, hdata⟩ := of_decide_eq_true hfits
  constructor
  · intro hr
    obtain ⟨b', hb', hread⟩ := hr
    by_contra hout
    exact readFd_overflows bd hdata hout hb' hread
  · intro hfit
    obtain ⟨v, hv, hr⟩ := readFd_fits bd hdata hfit
    exact ⟨_, hr, readFd_fits_keeps bd hfit hv⟩

/-- A read into the last byte and one byte of `extrabuf`. -/
theorem readFd_loses_last : ∃ s, (lts Unit).Reachable s ∧ (s ()).buf.writeIndex + 1 = (s ()).buf.buffer.length ∧
    (Op.readFd (.ok [1, 2])).fits (s ()).buf = true ∧
    ¬ ∃ b', (s ()).buf.readFd (.ok [1, 2]) = .ok (b', 2, none) ∧ b'.readable = (s ()).buf.readable ++ [1, 2] := by
  have hrun : (lts Unit).Run (fresh Unit) [.on () (.hasWriten (List.replicate 15 1))] _ := .cons rfl (.nil _)
  have hreach : (lts Unit).Reachable _ := ⟨_, _, init_fresh, hrun⟩
  refine ⟨_, hreach, rfl, by decide, ?_⟩
  intro hr
  obtain ⟨b', hb', hread⟩ := hr
  cases hb'
  exact absurd hread (by decide)

theorem readFd_appends_last : ∃ s, (lts Unit).Reachable s ∧
    ∃ b', (s ()).buf.readFd (.ok [1]) = .ok (b', 1, none) ∧ b'.readable = (s ()).buf.readable ++ [1] := by
  have hrun : (lts Unit).Run (fresh Unit) [.on () (.hasWriten (List.replicate 15 1))] _ := .cons rfl (.nil _)
  have hreach : (lts Unit).Reachable _ := ⟨_, _, init_fresh, hrun⟩
  exact ⟨_, hreach, ((readFd_appends_iff hreach ()).2 [1] (by decide)).mpr (.inr (by decide))⟩

end

end MyLearning.Buffer
