import MyLearning.Lib.Printf
import MyLearning.MyMuduo.Timer

/-!
# Timestamps as seconds and as text

`fromUnixTime` adds its seconds to the microseconds without scaling them, and
`toFormattedString` shows the seconds since the epoch once more where the microseconds of
the second belong. `now`, `secondsSinceEpoch` and `toString` use one scale.

`gmtime_r` is not part of the sources. `Calendar` is what the format relies on.
-/

namespace MyLearning.Timestamp

open Printf

def secondsSinceEpoch (t : Int) : Int := t.tdiv kMicrosecondsPerSecond

def fromUnixTime (t microseconds : Int) : Except Fault Int := int64 (t + microseconds)

def fromUnixTimeSeconds (t : Int) : Except Fault Int := fromUnixTime t 0

/-- `gettimeofday` answers `tv_sec` and `tv_usec`. -/
def now (tv_sec tv_usec : Int) : Except Fault Int := do
  let secons ← int64 (tv_sec * kMicrosecondsPerSecond)
  int64 (secons + tv_usec)

def toString (t : Int) : List Char :=
  let seconds := t.tdiv kMicrosecondsPerSecond
  let microseconds := t.tmod kMicrosecondsPerSecond
  snprintf 32 (number seconds ++ '.' :: zeroPadded 6 microseconds)

structure Tm where
  tm_year : Int
  tm_mon : Int
  tm_mday : Int
  tm_hour : Int
  tm_min : Int
  tm_sec : Int
  deriving DecidableEq

def castInt (x : Int) : Int := x.bmod (2 ^ 32)

def date (tm : Tm) : List Char :=
  blankPadded 4 (tm.tm_year + 1900) ++ (zeroPadded 2 (tm.tm_mon + 1) ++ zeroPadded 2 tm.tm_mday)

def clock (tm : Tm) : List Char :=
  zeroPadded 2 tm.tm_hour ++ ':' :: (zeroPadded 2 tm.tm_min ++ ':' :: zeroPadded 2 tm.tm_sec)

def toFormattedString (gmtime_r : Int → Tm) (showMicroseconds : Bool) (t : Int) : List Char :=
  let seconds := t.tdiv kMicrosecondsPerSecond
  let tm_time := gmtime_r seconds
  if showMicroseconds then
    let microseconds := castInt (t.tdiv kMicrosecondsPerSecond)
    snprintf 64 (date tm_time ++ ' ' :: (clock tm_time ++ zeroPadded 4 microseconds))
  else snprintf 64 (date tm_time ++ ' ' :: clock tm_time)

/-! ## Seconds -/

theorem secondsSinceEpoch_eq {t : Int} (h : 0 ≤ t) : secondsSinceEpoch t = t / 1000000 :=
  Int.tdiv_eq_ediv_of_nonneg h

theorem now_secondsSinceEpoch {tv_sec tv_usec ts : Int} (hs : 0 ≤ tv_sec) (hu : 0 ≤ tv_usec) (hlt : tv_usec < 1000000)
    (h : now tv_sec tv_usec = .ok ts) : secondsSinceEpoch ts = tv_sec := by
  obtain ⟨s, hsec, hts⟩ := bind_eq_ok.mp h
  have hsec := (int64_eq_ok.mp hsec).2
  have hts := (int64_eq_ok.mp hts).2
  unfold kMicrosecondsPerSecond at hsec
  rw [secondsSinceEpoch_eq (by omega)]
  omega

theorem toString_eq {t : Int} (h₀ : 0 ≤ t) (h : t < 2 ^ 63) :
    toString t = number (t / 1000000) ++ '.' :: zeroPadded 6 (t % 1000000) := by
  unfold toString
  have hs : t.tdiv kMicrosecondsPerSecond = t / 1000000 := secondsSinceEpoch_eq h₀
  have hu : t.tmod kMicrosecondsPerSecond = t % 1000000 := Int.tmod_eq_emod_of_nonneg h₀
  rw [hs, hu]
  refine snprintf_fits ?_
  have hseconds := length_number_le (i := t / 1000000) (k := 19) (by omega) (by omega)
  have hmicro := length_zeroPadded (w := 6) (i := t % 1000000) (by omega) (by omega) (by omega)
  simp only [List.length_append, List.length_cons, hmicro]
  omega

theorem decimal_inj {s s' us us' : Int} (hs : 0 ≤ s) (hs' : 0 ≤ s') (hu : 0 ≤ us) (hu' : 0 ≤ us')
    (h : number s ++ '.' :: zeroPadded 6 us = number s' ++ '.' :: zeroPadded 6 us') : s = s' ∧ us = us' := by
  have hdot : ∀ i, '.' ∉ number i := fun i => notMem_number (by decide) (by decide)
  have hdot' : ∀ i, '.' ∉ zeroPadded 6 i := fun i => notMem_zeroPadded (by decide) (by decide)
  obtain ⟨hsec, -, hmicro⟩ := (List.append_cons_inj_of_notMem (hdot s') (hdot' us')).mp h.symm
  exact ⟨number_inj hs hs' hsec.symm, zeroPadded_inj hu hu' hmicro.symm⟩

theorem fromUnixTime_right_iff {t us : Int} (ht : 0 ≤ t) (hu : 0 ≤ us) (hlt : us < 1000000)
    (hfit : t * 1000000 + us < 2 ^ 63) :
    (∃ ts, fromUnixTime t us = .ok ts ∧ secondsSinceEpoch ts = t ∧ toString ts = number t ++ '.' :: zeroPadded 6 us) ↔
      t = 0 := by
  have hsum : fromUnixTime t us = .ok (t + us) := int64_eq_ok.mpr ⟨by omega, rfl⟩
  have hsec : secondsSinceEpoch (t + us) = (t + us) / 1000000 := secondsSinceEpoch_eq (by omega)
  rw [hsum]
  constructor
  · intro h
    obtain ⟨ts, hts, hs, htext⟩ := h
    cases hts
    rw [toString_eq (by omega) (by omega)] at htext
    have hparts := decimal_inj (by omega) ht (by omega) hu htext
    omega
  · intro h
    subst h
    refine ⟨_, rfl, ?_, ?_⟩
    · rw [hsec]
      omega
    · rw [toString_eq (by omega) (by omega)]
      have hs : (0 + us) / 1000000 = 0 := by omega
      have hm : (0 + us) % 1000000 = us := by omega
      rw [hs, hm]

/-! ## The formatted string -/

def Whole (s : Int) : Prop := 0 ≤ s ∧ s * kMicrosecondsPerSecond < 2 ^ 63

/-- The ranges of the fields, as `gmtime_r` documents them. -/
structure Tm.Valid (tm : Tm) : Prop where
  year : 70 ≤ tm.tm_year
  year_fits : tm.tm_year + 1900 < 2 ^ 31
  mon : 0 ≤ tm.tm_mon ∧ tm.tm_mon ≤ 11
  mday : 1 ≤ tm.tm_mday ∧ tm.tm_mday ≤ 31
  hour : 0 ≤ tm.tm_hour ∧ tm.tm_hour ≤ 23
  min : 0 ≤ tm.tm_min ∧ tm.tm_min ≤ 59
  sec : 0 ≤ tm.tm_sec ∧ tm.tm_sec ≤ 60

/-- A conversion of whole seconds to calendar time that tells them apart. -/
structure Calendar (gmtime_r : Int → Tm) : Prop where
  valid : ∀ s, Whole s → (gmtime_r s).Valid
  injective : ∀ s s', Whole s → Whole s' → gmtime_r s = gmtime_r s' → s = s'

theorem blank_notMem_clock (tm : Tm) : ' ' ∉ clock tm := by
  have hblank : ∀ i, ' ' ∉ zeroPadded 2 i := fun i => notMem_zeroPadded (by decide) (by decide)
  unfold clock
  simp only [List.mem_append, List.mem_cons, not_or]
  exact ⟨hblank _, by decide, hblank _, by decide, hblank _⟩

structure TwoDigits (tm : Tm) : Prop where
  month : (zeroPadded 2 (tm.tm_mon + 1)).length = 2
  day : (zeroPadded 2 tm.tm_mday).length = 2
  hour : (zeroPadded 2 tm.tm_hour).length = 2
  minute : (zeroPadded 2 tm.tm_min).length = 2
  second : (zeroPadded 2 tm.tm_sec).length = 2

section
variable {tm tm' : Tm} (v : tm.Valid) (v' : tm'.Valid)
include v

theorem Tm.Valid.date_eq : date tm = number (tm.tm_year + 1900) ++ (zeroPadded 2 (tm.tm_mon + 1) ++ zeroPadded 2 tm.tm_mday) := by
  have hyear := v.year
  rw [date, blankPadded_wide (by omega) (by omega)]

theorem Tm.Valid.twoDigits : TwoDigits tm := by
  have hmon := v.mon
  have hday := v.mday
  have hhour := v.hour
  have hmin := v.min
  have hsec := v.sec
  have htwo : ∀ i : Int, 0 ≤ i → i < 100 → (zeroPadded 2 i).length = 2 := fun i h₀ h =>
    length_zeroPadded (by omega) h₀ h
  exact ⟨htwo _ (by omega) (by omega), htwo _ (by omega) (by omega), htwo _ (by omega) (by omega),
    htwo _ (by omega) (by omega), htwo _ (by omega) (by omega)⟩

theorem Tm.Valid.length_clock : (clock tm).length = 8 := by
  have two := v.twoDigits
  simp [clock, two.hour, two.minute, two.second]

theorem Tm.Valid.length_date_le : (date tm).length ≤ 15 := by
  have hyear := v.year
  have hfits := v.year_fits
  have hnumber := length_number_le (i := tm.tm_year + 1900) (k := 10) (by omega) (by omega)
  rw [v.date_eq]
  simp only [List.length_append, v.twoDigits.month, v.twoDigits.day]
  omega

theorem Tm.Valid.blank_notMem_date : ' ' ∉ date tm := by
  rw [v.date_eq]
  simp only [List.mem_append, not_or]
  exact ⟨notMem_number (by decide) (by decide), notMem_zeroPadded (by decide) (by decide),
    notMem_zeroPadded (by decide) (by decide)⟩

include v'

theorem Tm.Valid.date_inj (h : date tm = date tm') :
    tm.tm_year = tm'.tm_year ∧ tm.tm_mon = tm'.tm_mon ∧ tm.tm_mday = tm'.tm_mday := by
  have hy := v.year
  have hy' := v'.year
  have hm := v.mon
  have hm' := v'.mon
  have hd := v.mday
  have hd' := v'.mday
  rw [v.date_eq, v'.date_eq] at h
  obtain ⟨hyear, hrest⟩ := List.append_inj' h (by
    simp only [List.length_append, v.twoDigits.month, v'.twoDigits.month, v.twoDigits.day, v'.twoDigits.day])
  obtain ⟨hmon, hday⟩ := List.append_inj hrest (by rw [v.twoDigits.month, v'.twoDigits.month])
  have hyear := number_inj (by omega) (by omega) hyear
  have hmon := zeroPadded_inj (by omega) (by omega) hmon
  have hday := zeroPadded_inj (by omega) (by omega) hday
  omega

theorem Tm.Valid.clock_inj (h : clock tm = clock tm') :
    tm.tm_hour = tm'.tm_hour ∧ tm.tm_min = tm'.tm_min ∧ tm.tm_sec = tm'.tm_sec := by
  unfold clock at h
  obtain ⟨hhour, h⟩ := List.append_inj h (by rw [v.twoDigits.hour, v'.twoDigits.hour])
  obtain ⟨hmin, h⟩ := List.append_inj (List.cons.inj h).2 (by rw [v.twoDigits.minute, v'.twoDigits.minute])
  exact ⟨zeroPadded_inj v.hour.1 v'.hour.1 hhour, zeroPadded_inj v.min.1 v'.min.1 hmin,
    zeroPadded_inj v.sec.1 v'.sec.1 (List.cons.inj h).2⟩

theorem Tm.Valid.text_inj {rest rest' : List Char} (hrest : ' ' ∉ rest)
    (h : date tm ++ ' ' :: (clock tm ++ rest) = date tm' ++ ' ' :: (clock tm' ++ rest')) : tm = tm' := by
  have hblank : ' ' ∉ clock tm ++ rest := by
    simp only [List.mem_append, not_or]
    exact ⟨blank_notMem_clock tm, hrest⟩
  obtain ⟨hdate, -, hclock⟩ := (List.append_cons_inj_of_notMem v.blank_notMem_date hblank).mp h
  obtain ⟨hclock, -⟩ := List.append_inj hclock (by rw [v.length_clock, v'.length_clock])
  obtain ⟨hyear, hmon, hday⟩ := v.date_inj v' hdate
  obtain ⟨hhour, hmin, hsec⟩ := v.clock_inj v' hclock
  cases tm
  cases tm'
  simp_all

end

theorem castInt_natAbs_le (x : Int) : (castInt x).natAbs ≤ 2 ^ 31 := by
  unfold castInt
  have hlow := Int.le_bmod (x := x) (m := 2 ^ 32) (by decide)
  have hhigh := Int.bmod_lt (x := x) (m := 2 ^ 32) (by decide)
  omega

theorem whole_secondsSinceEpoch {t : Int} (h₀ : 0 ≤ t) (h : t < 2 ^ 63) : Whole (secondsSinceEpoch t) := by
  rw [secondsSinceEpoch_eq h₀]
  unfold Whole kMicrosecondsPerSecond
  omega

section
variable {gmtime_r : Int → Tm} (cal : Calendar gmtime_r)
include cal

theorem toFormattedString_eq {t : Int} (h₀ : 0 ≤ t) (h : t < 2 ^ 63) :
    toFormattedString gmtime_r true t = date (gmtime_r (secondsSinceEpoch t)) ++
      ' ' :: (clock (gmtime_r (secondsSinceEpoch t)) ++ zeroPadded 4 (castInt (secondsSinceEpoch t))) := by
  have v := cal.valid _ (whole_secondsSinceEpoch h₀ h)
  have hcast := castInt_natAbs_le (secondsSinceEpoch t)
  have hmicro := length_zeroPadded_le (w := 4) (i := castInt (secondsSinceEpoch t)) (k := 10) (by omega) (by omega) (by omega)
  have hdate := v.length_date_le
  have hlen : (date (gmtime_r (secondsSinceEpoch t)) ++ ' ' :: (clock (gmtime_r (secondsSinceEpoch t)) ++
      zeroPadded 4 (castInt (secondsSinceEpoch t)))).length < 64 := by
    simp only [List.length_append, List.length_cons, v.length_clock]
    omega
  exact snprintf_fits hlen

theorem toFormattedString_eq_iff {a b : Int} (ha : 0 ≤ a) (ha' : a < 2 ^ 63) (hb : 0 ≤ b) (hb' : b < 2 ^ 63) :
    toFormattedString gmtime_r true a = toFormattedString gmtime_r true b ↔ secondsSinceEpoch a = secondsSinceEpoch b := by
  have hwa := whole_secondsSinceEpoch ha ha'
  have hwb := whole_secondsSinceEpoch hb hb'
  rw [toFormattedString_eq cal ha ha', toFormattedString_eq cal hb hb']
  constructor
  · intro h
    have hblank : ' ' ∉ zeroPadded 4 (castInt (secondsSinceEpoch a)) := notMem_zeroPadded (by decide) (by decide)
    have htm := (cal.valid _ hwa).text_inj (cal.valid _ hwb) hblank h
    exact cal.injective _ _ hwa hwb htm
  · intro h
    rw [h]

/-- **One unit.** A time built from seconds and microseconds shows them again if and only if the
seconds are zero; and two timestamps have different formatted strings if and only if they lie in
different seconds. -/
theorem timestamp_units_iff :
    (∀ t us, 0 ≤ t → 0 ≤ us → us < 1000000 → t * 1000000 + us < 2 ^ 63 →
      ((∃ ts, fromUnixTime t us = .ok ts ∧ secondsSinceEpoch ts = t ∧
        toString ts = number t ++ '.' :: zeroPadded 6 us) ↔ t = 0)) ∧
    ∀ a b, 0 ≤ a → a < 2 ^ 63 → 0 ≤ b → b < 2 ^ 63 →
      (toFormattedString gmtime_r true a ≠ toFormattedString gmtime_r true b ↔
        secondsSinceEpoch a ≠ secondsSinceEpoch b) := by
  refine ⟨fun t us => fromUnixTime_right_iff, ?_⟩
  intro a b ha ha' hb hb'
  exact not_congr (toFormattedString_eq_iff cal ha ha' hb hb')

end

/-- Months of 28 days: the calendar of the first four weeks. -/
def firstWeeks (s : Int) : Tm :=
  ⟨70 + s / 86400 / 336, s / 86400 / 28 % 12, s / 86400 % 28 + 1, s / 3600 % 24, s / 60 % 60, s % 60⟩

theorem calendar_firstWeeks : Calendar firstWeeks where
  valid s hs := by
    unfold Whole kMicrosecondsPerSecond at hs
    unfold firstWeeks
    exact ⟨by show 70 ≤ 70 + s / 86400 / 336; omega, by show 70 + s / 86400 / 336 + 1900 < 2 ^ 31; omega,
      by show 0 ≤ s / 86400 / 28 % 12 ∧ s / 86400 / 28 % 12 ≤ 11; omega,
      by show 1 ≤ s / 86400 % 28 + 1 ∧ s / 86400 % 28 + 1 ≤ 31; omega,
      by show 0 ≤ s / 3600 % 24 ∧ s / 3600 % 24 ≤ 23; omega,
      by show 0 ≤ s / 60 % 60 ∧ s / 60 % 60 ≤ 59; omega, by show 0 ≤ s % 60 ∧ s % 60 ≤ 60; omega⟩
  injective s s' _ _ h := by
    simp only [firstWeeks, Tm.mk.injEq] at h
    omega

theorem units_at_epoch : (∃ ts, fromUnixTime 0 5 = .ok ts ∧ secondsSinceEpoch ts = 0 ∧
      toString ts = number 0 ++ '.' :: zeroPadded 6 5) ∧
    toFormattedString firstWeeks true 0 ≠ toFormattedString firstWeeks true 1000000 :=
  ⟨((timestamp_units_iff calendar_firstWeeks).1 0 5 (by decide) (by decide) (by decide) (by decide)).mpr rfl,
    ((timestamp_units_iff calendar_firstWeeks).2 0 1000000 (by decide) (by decide) (by decide) (by decide)).mpr
      (by decide)⟩

/-- One second is taken for one microsecond, and one microsecond later the text is the same. -/
theorem second_lost : (∃ ts, fromUnixTime 1 0 = .ok ts ∧ secondsSinceEpoch ts = 0) ∧
    ∀ gmtime_r, toFormattedString gmtime_r true 0 = toFormattedString gmtime_r true 1 :=
  ⟨⟨1, rfl, by decide⟩, fun _ => rfl⟩

end MyLearning.Timestamp
