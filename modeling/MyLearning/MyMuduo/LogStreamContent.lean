import Mathlib.Tactic.IntervalCases
import MyLearning.Lib.Numeral
import MyLearning.MyMuduo.LogStream

/-!
# The content of a log stream

A stream holds the full renderings of the items it accepts, in order. `Wrote` says that a
text stands at a place of an array and what is in front of it has stayed; one free byte is
always left for a terminator, and no number takes more than the reserve.
-/

namespace MyLearning.LogStream

open Numeral

/-! ## Texts in an array -/

/-- `data'` is `data` with `text` from `buf` on; what follows the text may have changed. -/
structure Wrote (data : List UInt8) (buf : Nat) (text data' : List UInt8) : Prop where
  length : data'.length = data.length
  take : data'.take (buf + text.length) = data.take buf ++ text

variable {data data' data'' text text' : List UInt8} {buf : Nat}

theorem store_wrote (data : List UInt8) (buf : Nat) (text : List UInt8) (h : buf + text.length ≤ data.length) :
    ∃ data', Vec.store data buf text = .ok data' ∧ Wrote data buf text data' := by
  have hstore := Vec.store_eq h
  refine ⟨_, hstore, Vec.length_store hstore, ?_⟩
  have hlen : (data.take buf ++ text).length = buf + text.length := by
    rw [List.length_append, List.length_take]
    omega
  rw [← hlen, List.take_left]

theorem Wrote.append (h : Wrote data buf text data') (h' : Wrote data' (buf + text.length) text' data'') :
    Wrote data buf (text ++ text') data'' := by
  refine ⟨h'.length.trans h.length, ?_⟩
  rw [List.length_append, ← Nat.add_assoc, h'.take, h.take, List.append_assoc]

theorem Wrote.take_of_le (h : Wrote data buf text data') (hbuf : buf ≤ data.length) {n : Nat} (hn : n ≤ text.length) :
    data'.take (buf + n) = data.take buf ++ text.take n := by
  have htake := congrArg (List.take (buf + n)) h.take
  rw [List.take_take, Nat.min_eq_left (by omega), List.take_append, List.take_take, List.length_take] at htake
  rw [htake, Nat.min_eq_right (by omega), Nat.min_eq_left hbuf, Nat.add_sub_cancel_left]

theorem Wrote.left (h : Wrote data buf (text ++ text') data') (hbuf : buf ≤ data.length) : Wrote data buf text data' := by
  refine ⟨h.length, ?_⟩
  rw [h.take_of_le hbuf (by simp), List.take_left]

theorem Wrote.before (h : Wrote data buf text data') (hbuf : buf ≤ data.length) : data'.take buf = data.take buf := by
  have htake := h.take_of_le hbuf (Nat.zero_le _)
  simpa using htake

theorem Wrote.load (h : Wrote data buf text data') (hbuf : buf + text.length ≤ data.length) :
    Vec.load data' buf text.length = .ok text := by
  have hlen : (data.take buf).length = buf := by
    rw [List.length_take]
    omega
  have hdrop := congrArg (List.drop buf) h.take
  rw [List.drop_take, Nat.add_sub_cancel_left, List.drop_left' hlen] at hdrop
  rw [Vec.load_eq (.inr (by rw [h.length]; exact hbuf)), hdrop]

theorem Wrote.again (h : Wrote data buf text data') (hbuf : buf ≤ data.length) (h' : Wrote data' buf text' data'') :
    Wrote data buf text' data'' := by
  refine ⟨h'.length.trans h.length, ?_⟩
  rw [h'.take, h.before hbuf]

/-! ## Renderings -/

def decimalChar (d : Nat) : UInt8 := UInt8.ofNat (48 + d)

def hexChar (d : Nat) : UInt8 := if d < 10 then UInt8.ofNat (48 + d) else UInt8.ofNat (55 + d)

def sign (v : Int) : List UInt8 := if v < 0 then [minus] else []

def decimalText (v : Int) : List UInt8 := sign v ++ (numeral 10 v.natAbs).map decimalChar

def pointerText (p : Nat) : List UInt8 := ascii "0x" ++ (numeral 16 p).map hexChar

/-! ## The loop over the digits -/

theorem store_cons (data : List UInt8) (p : Nat) (c : UInt8) (text : List UInt8) :
    Vec.store data p (c :: text) = Vec.store data p [c] >>= fun data => Vec.store data (p + 1) text := by
  simp only [Vec.store]
  split <;> rfl

theorem putDigits_eq {r : Radix} (good : Int → Prop) {chr : Nat → UInt8} (hgood : ∀ i, good i → good (i.tdiv r.base))
    (hdigit : ∀ i, good i → r.digit (i.tmod r.base) = .ok (chr (i.natAbs % r.base))) :
    ∀ (n : Nat) (i : Int), i.natAbs = n → good i → ∀ (data : List UInt8) (p : Nat), putDigits r data p i =
      (Vec.store data p ((lsd r.base n).map chr)).map fun data => (data, p + (lsd r.base n).length) := by
  intro n
  induction n using Nat.strong_induction_on with
  | _ n ih =>
    intro i hi hg data p
    have hdiv : (i.tdiv r.base).natAbs = n / r.base := by
      rw [Int.natAbs_tdiv, Int.natAbs_natCast, hi]
      rfl
    rw [putDigits, hdigit i hg, ok_bind, lsd_eq r.one_lt, List.map_cons,
      store_cons data p _ (List.map chr _), hi]
    cases Vec.store data p [chr (n % r.base)] with
    | error e => rfl
    | ok data =>
      simp only [ok_bind]
      by_cases hzero : i.tdiv r.base = 0
      · have hn : n / r.base = 0 := by rw [← hdiv, hzero]; rfl
        rw [dif_pos hzero, if_pos hn]
        rfl
      · have hn : n / r.base ≠ 0 := by
          rw [← hdiv]
          exact Int.natAbs_ne_zero.mpr hzero
        have hlt : n / r.base < n := by
          rw [← hdiv, ← hi]
          exact natAbs_tdiv_lt r.one_lt hzero
        rw [dif_neg hzero, if_neg hn, ih _ hlt _ hdiv (hgood i hg)]
        simp [Nat.add_assoc, Nat.add_comm]

theorem decimal_digit (i : Int) : decimal.digit (i.tmod decimal.base) = .ok (decimalChar (i.natAbs % decimal.base)) := by
  have htmod : i.tmod 10 = (i.natAbs % 10 : Nat) ∨ i.tmod 10 = -(i.natAbs % 10 : Nat) := by
    have habs : (i.tmod 10).natAbs = i.natAbs % 10 := Int.natAbs_tmod i 10
    omega
  have hlt : i.natAbs % 10 < 10 := Nat.mod_lt _ (by decide)
  change readAt digits (zero + i.tmod 10) = .ok (decimalChar (i.natAbs % 10))
  generalize i.natAbs % 10 = k at htmod hlt
  rcases htmod with h | h <;> rw [h] <;> interval_cases k <;> rfl

theorem hexadecimal_digit (i : Int) (hi : 0 ≤ i) :
    hexadecimal.digit (i.tmod hexadecimal.base) = .ok (hexChar (i.natAbs % hexadecimal.base)) := by
  have htmod : i.tmod 16 = (i.natAbs % 16 : Nat) := by
    rw [Int.tmod_eq_emod_of_nonneg hi]
    omega
  have hlt : i.natAbs % 16 < 16 := Nat.mod_lt _ (by decide)
  change readAt digitsHex (i.tmod 16) = .ok (hexChar (i.natAbs % 16))
  generalize i.natAbs % 16 = k at htmod hlt
  rw [htmod]
  interval_cases k <;> rfl

theorem map_lsd_reverse (chr : Nat → UInt8) (b n : Nat) : ((lsd b n).map chr).reverse = (numeral b n).map chr := by
  rw [numeral, List.map_reverse]

theorem reverse_wrote (h : Wrote data buf text data') (hbuf : buf + text.length < data.length) :
    ∃ data'', reverse data' buf (buf + text.length) = .ok (data'', text.length) ∧ Wrote data buf text.reverse data'' := by
  obtain ⟨d₁, h₁, hd₁⟩ := store_wrote data' (buf + text.length) [0] (by
    rw [h.length]
    exact hbuf)
  have hwrote := (h.append hd₁).left (by omega)
  obtain ⟨d₂, h₂, hd₂⟩ := store_wrote d₁ buf text.reverse (by
    rw [hwrote.length, List.length_reverse]
    omega)
  refine ⟨d₂, ?_, hwrote.again (by omega) hd₂⟩
  rw [reverse, h₁, ok_bind, Nat.add_sub_cancel_left, hwrote.load (by omega), ok_bind, h₂]
  rfl

theorem putDigits_wrote {r : Radix} (good : Int → Prop) {chr : Nat → UInt8} (hgood : ∀ i, good i → good (i.tdiv r.base))
    (hdigit : ∀ i, good i → r.digit (i.tmod r.base) = .ok (chr (i.natAbs % r.base))) {i : Int} (hi : good i)
    (data : List UInt8) (buf : Nat) (hbuf : buf + ((lsd r.base i.natAbs).map chr).length ≤ data.length) :
    ∃ data', putDigits r data buf i = .ok (data', buf + ((lsd r.base i.natAbs).map chr).length) ∧
      Wrote data buf ((lsd r.base i.natAbs).map chr) data' := by
  obtain ⟨data', h, hwrote⟩ := store_wrote data buf _ hbuf
  refine ⟨data', ?_, hwrote⟩
  rw [putDigits_eq good hgood hdigit i.natAbs i rfl hi, h, List.length_map]
  rfl

theorem convert_wrote (data : List UInt8) (buf : Nat) (v : Int) (hbuf : buf + (decimalText v).length < data.length) :
    ∃ data', convert data buf v = .ok (data', (decimalText v).length) ∧ Wrote data buf (decimalText v) data' := by
  have hrev := map_lsd_reverse decimalChar 10 v.natAbs
  have hlen : (decimalText v).length = (sign v).length + ((lsd 10 v.natAbs).map decimalChar).length := by
    rw [decimalText, List.length_append, ← hrev, List.length_reverse]
  obtain ⟨d₁, h₁, hd₁⟩ := putDigits_wrote (r := decimal) (fun _ => True) (fun _ _ => trivial)
    (fun i _ => decimal_digit i) trivial data buf (show buf + ((lsd 10 v.natAbs).map decimalChar).length ≤ _ by omega)
  change Wrote data buf ((lsd 10 v.natAbs).map decimalChar) d₁ at hd₁
  change _ = Except.ok (d₁, buf + ((lsd 10 v.natAbs).map decimalChar).length) at h₁
  generalize (lsd 10 v.natAbs).map decimalChar = ds at *
  unfold convert
  rw [h₁, ok_bind]
  by_cases hv : v < 0
  · have hsign : sign v = [minus] := if_pos hv
    have htext : (ds ++ [minus]).reverse = decimalText v := by
      rw [List.reverse_append, hrev, decimalText, hsign]
      rfl
    rw [hsign, List.length_singleton] at hlen
    obtain ⟨d₂, h₂, hd₂⟩ := store_wrote d₁ (buf + ds.length) [minus] (by
      rw [hd₁.length, List.length_singleton]
      omega)
    obtain ⟨d₃, h₃, hd₃⟩ := reverse_wrote (hd₁.append hd₂) (by
      rw [List.length_append, List.length_singleton]
      omega)
    rw [htext] at hd₃
    rw [List.length_append, List.length_singleton, ← Nat.add_assoc] at h₃
    simp only [if_pos hv, h₂, ok_bind]
    exact ⟨d₃, by rw [h₃, hlen, Nat.add_comm 1], hd₃⟩
  · have hsign : sign v = [] := if_neg hv
    have htext : ds.reverse = decimalText v := by
      rw [hrev, decimalText, hsign]
      rfl
    rw [hsign, List.length_nil, Nat.zero_add] at hlen
    obtain ⟨d₃, h₃, hd₃⟩ := reverse_wrote hd₁ (by omega)
    rw [htext] at hd₃
    simp only [if_neg hv]
    exact ⟨d₃, by rw [h₃, hlen], hd₃⟩

theorem convertHex_wrote (data : List UInt8) (buf : Nat) (v : UInt64) (hbuf : buf + (numeral 16 v.toNat).length < data.length) :
    ∃ data', convertHex data buf v = .ok (data', (numeral 16 v.toNat).length) ∧
      Wrote data buf ((numeral 16 v.toNat).map hexChar) data' := by
  have hmap : ((lsd 16 v.toNat).map hexChar).length = (numeral 16 v.toNat).length := by
    rw [List.length_map, length_numeral]
  obtain ⟨d₁, h₁, hd₁⟩ := putDigits_wrote (r := hexadecimal) (fun i => 0 ≤ i)
    (fun i hi => Int.tdiv_nonneg hi (by decide)) hexadecimal_digit (i := v.toNat) (Int.natCast_nonneg _) data buf
    (show buf + ((lsd 16 v.toNat).map hexChar).length ≤ _ by omega)
  change Wrote data buf ((lsd 16 v.toNat).map hexChar) d₁ at hd₁
  obtain ⟨d₂, h₂, hd₂⟩ := reverse_wrote hd₁ (by omega)
  rw [hmap] at h₂
  rw [map_lsd_reverse] at hd₂
  unfold convertHex
  rw [h₁, ok_bind]
  exact ⟨d₂, hmap ▸ h₂, hd₂⟩

/-! ## Items -/

def render : Item → List UInt8
  | .bool v => if v then ascii "1" else ascii "0"
  | .short v => decimalText v.toInt
  | .unsignedShort v => decimalText v.toNat
  | .int v => decimalText v.toInt
  | .unsignedInt v => decimalText v.toNat
  | .long v => decimalText v.toInt
  | .unsignedLong v => decimalText v.toNat
  | .longLong v => decimalText v.toInt
  | .unsignedLongLong v => decimalText v.toNat
  | .pointer p => pointerText p.toNat
  | .char v => [v]
  | .cString str | .unsignedCString str => (str.map CString.bytes).getD (ascii "(null)")
  | .string v | .stringView v => v

def Item.isNumber : Item → Bool
  | .short _ | .unsignedShort _ | .int _ | .unsignedInt _ | .long _ | .unsignedLong _ | .longLong _
  | .unsignedLongLong _ | .pointer _ => true
  | .bool _ | .char _ | .cString _ | .unsignedCString _ | .string _ | .stringView _ => false

/-- With `avail` bytes free: a number needs the reserve, a text must be shorter than what is free. -/
def Item.accepted (item : Item) (avail : Int) : Bool :=
  if item.isNumber then decide (kMaxNumericSize ≤ avail) else decide ((render item).length < avail)

def write (text : List UInt8) (item : Item) : List UInt8 :=
  if item.accepted (kSmallBuffer - text.length) then text ++ render item else text

def contents (items : List Item) : List UInt8 := items.foldl write []

theorem length_decimalText {v : Int} (h : -2 ^ 63 ≤ v ∧ v < 2 ^ 64) : (decimalText v).length ≤ 20 := by
  rw [decimalText, List.length_append, List.length_map]
  by_cases hv : v < 0
  · have hlen := length_numeral_le (b := 10) (by decide) (n := v.natAbs) (k := 19) (by decide) (by omega)
    rw [sign, if_pos hv, List.length_singleton]
    omega
  · have hlen := length_numeral_le (b := 10) (by decide) (n := v.natAbs) (k := 20) (by decide) (by omega)
    rw [sign, if_neg hv, List.length_nil]
    omega

theorem length_hex (v : UInt64) : (numeral 16 v.toNat).length ≤ 16 :=
  length_numeral_le (by decide) (by decide) v.toNat_lt

/-! ## The buffer -/

/-- The bytes that have been written, with at least one free byte behind them. -/
structure Holds (b : FixedBuffer) (text : List UInt8) : Prop where
  length : b.data.length = kSmallBuffer
  cur : b.cur = text.length
  free : text.length < kSmallBuffer
  take : b.data.take b.cur = text

variable {b : FixedBuffer}

theorem Holds.avail (h : Holds b text) : b.avail = kSmallBuffer - text.length := by
  rw [FixedBuffer.avail, h.length, h.cur]

theorem Holds.extend (h : Holds b text) (hw : Wrote b.data b.cur text' data')
    (hfree : text.length + text'.length < kSmallBuffer) : Holds ⟨data', b.cur + text'.length⟩ (text ++ text') := by
  refine ⟨hw.length.trans h.length, ?_, ?_, ?_⟩
  · rw [List.length_append, h.cur]
  · rw [List.length_append]
    exact hfree
  · rw [hw.take, h.take]

theorem append_holds (h : Holds b text) (buf : List UInt8) : ∃ b', b.append buf = .ok b' ∧
    Holds b' (if (buf.length : Int) < kSmallBuffer - text.length then text ++ buf else text) := by
  have hfree := h.free
  have havail : sizeT b.avail = kSmallBuffer - text.length := by
    rw [h.avail]
    exact sizeT_sub hfree.le (by decide)
  unfold FixedBuffer.append
  rw [havail]
  by_cases hlen : buf.length < kSmallBuffer - text.length
  · obtain ⟨d, hd, hw⟩ := store_wrote b.data b.cur buf (by
      rw [h.length, h.cur]
      omega)
    rw [if_pos hlen, if_pos (by omega), hd]
    exact ⟨_, rfl, h.extend hw (by omega)⟩
  · rw [if_neg hlen, if_neg (by omega)]
    exact ⟨b, rfl, h⟩

theorem room_of_avail {n : Nat} (h : kMaxNumericSize ≤ (kSmallBuffer - n : Int)) : n + 48 ≤ kSmallBuffer := by
  unfold kMaxNumericSize at h
  omega

theorem formatInteger_holds (h : Holds b text) {v : Int} (hv : -2 ^ 63 ≤ v ∧ v < 2 ^ 64) :
    ∃ b', formatInteger b v = .ok b' ∧
      Holds b' (if kMaxNumericSize ≤ (kSmallBuffer - text.length : Int) then text ++ decimalText v else text) := by
  have hlen := length_decimalText hv
  unfold formatInteger
  rw [h.avail]
  by_cases havail : kMaxNumericSize ≤ (kSmallBuffer - text.length : Int)
  · have hroom := room_of_avail havail
    obtain ⟨d, hd, hw⟩ := convert_wrote b.data b.cur v (by
      rw [h.length, h.cur]
      omega)
    simp only [ge_iff_le, if_pos havail, hd, ok_bind]
    exact ⟨_, rfl, h.extend hw (by omega)⟩
  · rw [if_neg havail, if_neg havail]
    exact ⟨b, rfl, h⟩

theorem formatPointer_holds (h : Holds b text) (v : UInt64) : ∃ b', formatPointer b v = .ok b' ∧
    Holds b' (if kMaxNumericSize ≤ (kSmallBuffer - text.length : Int) then text ++ pointerText v.toNat else text) := by
  have hlen := length_hex v
  unfold formatPointer
  rw [h.avail]
  by_cases havail : kMaxNumericSize ≤ (kSmallBuffer - text.length : Int)
  · have hroom := room_of_avail havail
    obtain ⟨d₁, h₁, hw₁⟩ := store_wrote b.data b.cur (ascii "0") (by
      rw [h.length, h.cur, show (ascii "0").length = 1 from rfl]
      omega)
    obtain ⟨d₂, h₂, hw₂⟩ := store_wrote d₁ (b.cur + 1) (ascii "x") (by
      rw [hw₁.length, h.length, h.cur, show (ascii "x").length = 1 from rfl]
      omega)
    have hx := hw₁.append hw₂
    obtain ⟨d₃, h₃, hw₃⟩ := convertHex_wrote d₂ (b.cur + 2) v (by
      rw [hx.length, h.length, h.cur]
      omega)
    have hw : Wrote b.data b.cur (pointerText v.toNat) d₃ := hx.append hw₃
    have hlen' : (pointerText v.toNat).length = (numeral 16 v.toNat).length + 2 := by
      rw [pointerText, List.length_append, List.length_map, Nat.add_comm]
      rfl
    simp only [ge_iff_le, if_pos havail, h₁, h₂, h₃, ok_bind]
    refine ⟨_, rfl, ?_⟩
    have hholds := h.extend hw (by omega)
    rw [hlen'] at hholds
    exact hholds
  · rw [if_neg havail, if_neg havail]
    exact ⟨b, rfl, h⟩

theorem write_text {item : Item} (h : item.isNumber = false) (text : List UInt8) : write text item =
    if ((render item).length : Int) < kSmallBuffer - text.length then text ++ render item else text := by
  simp [write, Item.accepted, h]

theorem write_number {item : Item} (h : item.isNumber = true) (text : List UInt8) : write text item =
    if kMaxNumericSize ≤ (kSmallBuffer - text.length : Int) then text ++ render item else text := by
  simp [write, Item.accepted, h]

theorem put_holds (h : Holds b text) (item : Item) : ∃ b', put b item = .ok b' ∧ Holds b' (write text item) := by
  cases item with
  | bool v =>
    rw [write_text rfl]
    exact append_holds h _
  | char v =>
    rw [write_text rfl]
    exact append_holds h [v]
  | string v =>
    rw [write_text rfl]
    exact append_holds h v
  | stringView v =>
    rw [write_text rfl]
    exact append_holds h v
  | cString str =>
    rw [write_text rfl]
    cases str with
    | none => exact append_holds h _
    | some str => exact append_holds h _
  | unsignedCString str =>
    rw [write_text rfl]
    cases str with
    | none => exact append_holds h _
    | some str => exact append_holds h _
  | short v =>
    rw [write_number rfl, put, Int16.toInt_toInt32]
    exact formatInteger_holds h (by have := v.le_toInt; have := v.toInt_lt; omega)
  | unsignedShort v =>
    rw [write_number rfl, put, UInt16.toNat_toUInt32]
    exact formatInteger_holds h (by have := v.toNat_lt; omega)
  | int v =>
    rw [write_number rfl]
    exact formatInteger_holds h (by have := v.le_toInt; have := v.toInt_lt; omega)
  | unsignedInt v =>
    rw [write_number rfl]
    exact formatInteger_holds h (by have := v.toNat_lt; omega)
  | long v | longLong v =>
    rw [write_number rfl]
    exact formatInteger_holds h (by have := v.le_toInt; have := v.toInt_lt; omega)
  | unsignedLong v | unsignedLongLong v =>
    rw [write_number rfl]
    exact formatInteger_holds h (by have := v.toNat_lt; omega)
  | pointer p =>
    rw [write_number rfl]
    exact formatPointer_holds h p

theorem putAll_holds : ∀ (items : List Item) {b : FixedBuffer} {text : List UInt8}, Holds b text →
    ∃ b', putAll b items = .ok b' ∧ Holds b' (items.foldl write text)
  | [], b, _, h => ⟨b, rfl, h⟩
  | item :: items, b, text, h => by
    obtain ⟨b₁, h₁, hb₁⟩ := put_holds h item
    obtain ⟨b', h', hb'⟩ := putAll_holds items hb₁
    refine ⟨b', ?_, hb'⟩
    rw [putAll, h₁, ok_bind, h']

theorem holds_fresh (data : Vector UInt8 kSmallBuffer) : Holds (fresh data) [] :=
  ⟨Vector.length_toList, rfl, by decide, rfl⟩

theorem Holds.toString (h : Holds b text) : b.toString = .ok text := by
  unfold FixedBuffer.toString FixedBuffer.length
  rw [Vec.load_eq (.inr (by rw [h.length, h.cur]; have := h.free; omega)), List.drop_zero, h.take]

theorem Holds.debugString (h : Holds b text) : ∃ b', b.debugString = .ok b' ∧ Holds b' text := by
  have hfree := h.free
  have hcur := h.cur
  have hlength := h.length
  obtain ⟨d, hd, hw⟩ := store_wrote b.data b.cur [0] (by
    rw [List.length_singleton]
    omega)
  refine ⟨⟨d, b.cur⟩, ?_, hw.length.trans h.length, h.cur, h.free, ?_⟩
  · rw [FixedBuffer.debugString, hd]
    rfl
  · rw [hw.before (by omega), h.take]

/-! ## What the renderings denote -/

def IsDecimal (v : Int) (text : List UInt8) : Prop :=
  ∃ ds, Canonical 10 ds ∧ value 10 ds = v.natAbs ∧ text = sign v ++ ds.map decimalChar

def IsPointer (p : Nat) (text : List UInt8) : Prop :=
  ∃ ds, Canonical 16 ds ∧ value 16 ds = p ∧ text = ascii "0x" ++ ds.map hexChar

def Denotes : Item → List UInt8 → Prop
  | .bool v, text => text = ascii (if v then "1" else "0")
  | .short v, text => IsDecimal v.toInt text
  | .unsignedShort v, text => IsDecimal v.toNat text
  | .int v, text => IsDecimal v.toInt text
  | .unsignedInt v, text => IsDecimal v.toNat text
  | .long v, text => IsDecimal v.toInt text
  | .unsignedLong v, text => IsDecimal v.toNat text
  | .longLong v, text => IsDecimal v.toInt text
  | .unsignedLongLong v, text => IsDecimal v.toNat text
  | .pointer p, text => IsPointer p.toNat text
  | .char v, text => text = [v]
  | .cString none, text | .unsignedCString none, text => text = ascii "(null)"
  | .cString (some str), text | .unsignedCString (some str), text => text = str.bytes
  | .string v, text | .stringView v, text => text = v

theorem isDecimal_decimalText (v : Int) : IsDecimal v (decimalText v) :=
  ⟨_, canonical_numeral (by decide) _, value_numeral .., rfl⟩

theorem isPointer_pointerText (p : Nat) : IsPointer p (pointerText p) :=
  ⟨_, canonical_numeral (by decide) _, value_numeral .., rfl⟩

theorem denotes_render (item : Item) : Denotes item (render item) := by
  cases item with
  | bool v => cases v <;> rfl
  | cString str | unsignedCString str => cases str <;> rfl
  | char v | string v | stringView v => rfl
  | pointer p => exact isPointer_pointerText _
  | short v | unsignedShort v | int v | unsignedInt v | long v | unsignedLong v | longLong v | unsignedLongLong v =>
    exact isDecimal_decimalText _

/-- Whatever is put into a new stream, nothing is written out of bounds and the stream holds the renderings
of the items it accepted. -/
theorem writes_whole_items (data : Vector UInt8 kSmallBuffer) (items : List Item) :
    ∃ b, putAll (fresh data) items = .ok b ∧ b.toString = .ok (contents items) ∧
      b.avail = kSmallBuffer - (contents items).length ∧
      (∃ b', b.debugString = .ok b' ∧ b'.toString = .ok (contents items)) ∧
      ∀ item, Denotes item (render item) := by
  obtain ⟨b, h, hb⟩ := putAll_holds items (holds_fresh data)
  obtain ⟨b', h', hb'⟩ := hb.debugString
  exact ⟨b, h, hb.toString, hb.avail, ⟨b', h', hb'.toString⟩, denotes_render⟩

end MyLearning.LogStream
