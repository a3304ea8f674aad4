import GraphBufferPool.Lib.FixedWidth
import GraphBufferPool.Lib.Gregorian
import Mathlib.Data.Int.Basic

/-! # `TimeConverter`

Milliseconds since the Unix epoch are printed with three digits of the fraction and an offset of zero, and read
back from that form or from a date alone. A time of whole seconds is printed without a fraction, and then nothing
of it is kept.
-/

namespace Gbp.TimeConverter

open FixedWidth

/-- A `std::string`. -/
abbrev Text := List Char

/-- The microseconds of a day. -/
abbrev ticksPerDay : ℕ := 24 * 3600 * 10 ^ 6

/-- The milliseconds of a day. -/
abbrev millisPerDay : ℕ := 24 * 3600 * 1000

/-- The last day of the year 9999, counted from the epoch. -/
abbrev lastDay : ℕ := 2932896

/-- What the class calls in Boost; a date is the number of days since `getEpoch()`, and a `ptime` the number of
microseconds. -/
structure Boost where
  dateToIsoExtendedString : ℤ → Except String Text
  fromSimpleString : Text → Except String ℤ
  timeToIsoExtendedString : ℤ → Except String Text
  fromIsoExtendedString : Text → Except String ℤ

/-- `YYYY-MM-DD`. -/
def dateForm (year month day : ℕ) : Text := decimal 4 year ++ '-' :: (decimal 2 month ++ '-' :: decimal 2 day)

/-- `THH:MM:SS`, behind a date. -/
def timeForm (date : Text) (seconds : ℕ) : Text :=
  date ++ 'T' :: (decimal 2 (seconds / 3600) ++
    ':' :: (decimal 2 (seconds / 60 % 60) ++ ':' :: decimal 2 (seconds % 60)))

/-- The `ptime` of a day and a time of day. -/
def ticks (day seconds micros : ℕ) : ℤ := day * ticksPerDay + seconds * 10 ^ 6 + micros

/-- Boost prints and parses the extended ISO form; a fraction has six digits where it is printed and up to six
where it is parsed, and one of zero is not printed. -/
structure Documented (boost : Boost) : Prop where
  printsDate : ∀ day ≤ lastDay, ∃ year month dayOfMonth,
    boost.dateToIsoExtendedString (day : ℕ) = .ok (dateForm year month dayOfMonth)
  parsesDate : ∀ day ≤ lastDay, ∀ date, boost.dateToIsoExtendedString (day : ℕ) = .ok date →
    boost.fromSimpleString date = .ok day
  printsTime : ∀ day ≤ lastDay, ∀ date, boost.dateToIsoExtendedString (day : ℕ) = .ok date →
    ∀ seconds < 24 * 3600, ∀ micros < 10 ^ 6, boost.timeToIsoExtendedString (ticks day seconds micros) =
      .ok (timeForm date seconds ++ if micros = 0 then [] else '.' :: decimal 6 micros)
  parsesTime : ∀ day ≤ lastDay, ∀ date, boost.dateToIsoExtendedString (day : ℕ) = .ok date →
    ∀ seconds < 24 * 3600, ∀ places ≤ 6, 0 < places → ∀ fraction < 10 ^ places,
      boost.fromIsoExtendedString (timeForm date seconds ++ '.' :: decimal places fraction) =
        .ok (ticks day seconds (fraction * 10 ^ (6 - places)))

/-- `std::stoi` of a few characters: a sign and the digits behind it, whatever follows. -/
def stoi (text : Text) : Except String ℤ :=
  let unsigned := match text with
    | '+' :: rest => rest
    | '-' :: rest => rest
    | _ => text
  let digits := unsigned.takeWhile Char.isDigit
  if digits = [] then .error "stoi"
  else if text.head? = some '-' then .ok (-value digits)
  else .ok (value digits)

/-- `dateRegex`: digits and hyphens. -/
def dateRegex : List (Option Char) := digits 4 ++ some '-' :: (digits 2 ++ some '-' :: digits 2)

/-- `dateTimeRegex`: a date with the time, three digits of the fraction and the offset. -/
def dateTimeRegex : List (Option Char) :=
  dateRegex ++ some 'T' :: (digits 2 ++ some ':' :: (digits 2 ++ some ':' :: (digits 2 ++
    some '.' :: (digits 3 ++ some '+' :: digits 4))))

/-- The rethrow of both conversions. -/
def rethrow {α : Type} (message : String) (body : Except String α) : Except String α := body.mapError (message ++ ·)

/-- `total_milliseconds` of a duration since the epoch. -/
def totalMilliseconds (ticks : ℤ) : ℤ := ticks.tdiv 1000

/-- `dateStringToMillis`. -/
def dateStringToMillis (boost : Boost) (dateString : Text) : Except String ℤ :=
  rethrow "Failed to parse date string: "
    (if fits dateRegex dateString then do
      let date ← boost.fromSimpleString dateString
      return totalMilliseconds (date * ticksPerDay)
    else if fits dateTimeRegex dateString then do
      let pt ← boost.fromIsoExtendedString (dateString.take 23)
      let tzPart := (dateString.drop 23).take 5
      let hours ← stoi (tzPart.take 3)
      let minutes ← stoi ((tzPart.drop 3).take 2)
      let tzOffset := (hours * 3600 + minutes * 60) * 1000
      return totalMilliseconds pt - tzOffset
    else .error "Unsupported date format")

/-- What `millisToDateString` keeps of the printed time. -/
def keepMillis (tmp : Text) : Text :=
  match tmp.findIdx? (· = '.') with
  | some dotPos => if dotPos + 4 < tmp.length then tmp.take (dotPos + 4) else []
  | none => []

/-- The offset that is appended. -/
def offsetText : Text := ['+', '0', '0', '0', '0']

/-- `millisToDateString`. -/
def millisToDateString (boost : Boost) (millis : ℤ) (includeTime : Bool) : Except String Text :=
  rethrow "Failed to convert millis to date string: "
    (if includeTime then do
      let tmp ← boost.timeToIsoExtendedString (millis * 1000)
      return keepMillis tmp ++ offsetText
    else boost.dateToIsoExtendedString (millis * 1000 / ticksPerDay))

/-- The printed form of a time is read back as that time. -/
def RoundTrips (boost : Boost) (millis : ℤ) (includeTime : Bool) : Prop :=
  ∃ text, millisToDateString boost millis includeTime = .ok text ∧ dateStringToMillis boost text = .ok millis

variable {boost : Boost} {day seconds m : ℕ} {date text : Text}

theorem fits_dateForm (year month day : ℕ) : fits dateRegex (dateForm year month day) = true :=
  fits_append (fits_decimal _ _) (fits_cons _ (fits_append (fits_decimal _ _) (fits_cons _ (fits_decimal _ _))))

/-- The pattern of a printed time without its fraction. -/
def secondsRegex : List (Option Char) :=
  dateRegex ++ some 'T' :: (digits 2 ++ some ':' :: (digits 2 ++ some ':' :: digits 2))

theorem fits_timeForm (fit : fits dateRegex date = true) (seconds : ℕ) :
    fits secondsRegex (timeForm date seconds) = true :=
  fits_append fit (fits_cons _ (fits_append (fits_decimal _ _) (fits_cons _
    (fits_append (fits_decimal _ _) (fits_cons _ (fits_decimal _ _))))))

theorem dateTimeRegex_eq : dateTimeRegex = secondsRegex ++ some '.' :: (digits 3 ++ some '+' :: digits 4) := by
  simp only [dateTimeRegex, secondsRegex, List.append_assoc, List.cons_append]

theorem Documented.fits_date (documented : Documented boost) (bound : day ≤ lastDay)
    (printed : boost.dateToIsoExtendedString day = .ok date) : fits dateRegex date = true := by
  obtain ⟨year, month, dayOfMonth, form⟩ := documented.printsDate day bound
  obtain rfl := Except.ok.inj (form.symm.trans printed)
  exact fits_dateForm year month dayOfMonth

/-- The fraction is found behind a time, which has no dot of its own. -/
theorem findIdx_dot (absent : '.' ∉ text) (rest : Text) :
    (text ++ '.' :: rest).findIdx? (· = '.') = some text.length := by
  induction text with
  | nil => rfl
  | cons c text ih =>
    obtain ⟨different, absent⟩ := not_or.mp (fun found => absent (List.mem_cons.mpr found))
    rw [List.cons_append, List.findIdx?_cons, if_neg (by simpa using Ne.symm different), ih absent]
    rfl

theorem keepMillis_none (absent : '.' ∉ text) : keepMillis text = [] := by
  have none : text.findIdx? (· = '.') = none := by
    rw [List.findIdx?_eq_none_iff]
    exact fun c member => decide_eq_false fun same => absent (same ▸ member)
  rw [keepMillis, none]

theorem keepMillis_micros (absent : '.' ∉ text) (fraction : ℕ) :
    keepMillis (text ++ '.' :: decimal 6 (fraction * 1000)) = text ++ '.' :: decimal 3 fraction := by
  have long : text.length + 4 < (text ++ '.' :: decimal 6 (fraction * 1000)).length := by
    rw [List.length_append, List.length_cons, length_decimal]
    omega
  have front : decimal 3 fraction = (decimal 6 (fraction * 1000)).take 3 := by
    rw [take_decimal 3 3, show fraction * 1000 / 10 ^ 3 = fraction from Nat.mul_div_cancel fraction (by decide)]
  rw [keepMillis, findIdx_dot absent]
  dsimp only
  rw [if_pos long, front, List.take_length_add_append, List.take_succ_cons]

theorem ticks_millis (m : ℕ) :
    (m : ℤ) * 1000 = ticks (m / millisPerDay) (m / 1000 % (24 * 3600)) (m % 1000 * 1000) := by
  unfold ticks ticksPerDay millisPerDay
  push_cast
  omega

theorem totalMilliseconds_millis (m : ℕ) : totalMilliseconds ((m : ℤ) * 1000) = m :=
  Int.mul_tdiv_cancel _ (by decide)

/-- The printed time of milliseconds within the years of four digits. -/
theorem Documented.prints_millis (documented : Documented boost) (bound : m / millisPerDay ≤ lastDay)
    (printed : boost.dateToIsoExtendedString (m / millisPerDay : ℕ) = .ok date) :
    boost.timeToIsoExtendedString ((m : ℤ) * 1000) = .ok (timeForm date (m / 1000 % (24 * 3600)) ++
      if m % 1000 = 0 then [] else '.' :: decimal 6 (m % 1000 * 1000)) := by
  have micros : m % 1000 * 1000 < 10 ^ 6 := by omega
  have form := documented.printsTime _ bound date printed (m / 1000 % (24 * 3600)) (Nat.mod_lt _ (by decide)) _ micros
  rw [ticks_millis, form]
  by_cases whole : m % 1000 = 0
  · rw [whole, zero_mul, if_pos rfl]
  · rw [if_neg whole, if_neg (by omega)]

/-- A time with a fraction keeps its milliseconds; of the others nothing is kept. -/
theorem millisToDateString_time (documented : Documented boost) (bound : m / millisPerDay ≤ lastDay)
    (printed : boost.dateToIsoExtendedString (m / millisPerDay : ℕ) = .ok date) :
    millisToDateString boost m true = .ok (if m % 1000 = 0 then offsetText
      else timeForm date (m / 1000 % (24 * 3600)) ++ '.' :: decimal 3 (m % 1000) ++ offsetText) := by
  have absent : '.' ∉ timeForm date (m / 1000 % (24 * 3600)) :=
    notMem_of_fits (fits_timeForm (documented.fits_date bound printed) _) (by decide) (by decide)
  unfold millisToDateString
  rw [if_pos rfl, documented.prints_millis bound printed]
  by_cases whole : m % 1000 = 0
  · rw [if_pos whole, if_pos whole, List.append_nil]
    exact congrArg (fun kept => Except.ok (kept ++ offsetText)) (keepMillis_none absent)
  · rw [if_neg whole, if_neg whole]
    exact congrArg (fun kept => Except.ok (kept ++ offsetText)) (keepMillis_micros absent _)

/-- What is left of a time of whole seconds is refused. -/
theorem dateStringToMillis_offset (boost : Boost) :
    dateStringToMillis boost offsetText = .error "Failed to parse date string: Unsupported date format" := rfl

/-- A time with three digits of the fraction is read back. -/
theorem dateStringToMillis_time (documented : Documented boost) (bound : m / millisPerDay ≤ lastDay)
    (printed : boost.dateToIsoExtendedString (m / millisPerDay : ℕ) = .ok date) :
    dateStringToMillis boost (timeForm date (m / 1000 % (24 * 3600)) ++ '.' :: decimal 3 (m % 1000) ++ offsetText) =
      .ok m := by
  have fit := fits_timeForm (documented.fits_date bound printed) (m / 1000 % (24 * 3600))
  have size : (timeForm date (m / 1000 % (24 * 3600))).length = 19 := length_of_fits fit
  have parsed := documented.parsesTime _ bound date printed (m / 1000 % (24 * 3600)) (Nat.mod_lt _ (by decide)) 3
    (by decide) (by decide) (m % 1000) (Nat.mod_lt _ (by decide))
  rw [show m % 1000 * 10 ^ (6 - 3) = m % 1000 * 1000 from rfl, ← ticks_millis] at parsed
  generalize timeForm date (m / 1000 % (24 * 3600)) = time at fit size parsed
  have notDate : ¬ fits dateRegex (time ++ '.' :: decimal 3 (m % 1000) ++ offsetText) = true := by
    intro isDate
    have short := length_of_fits isDate
    rw [List.length_append, List.length_append, size, List.length_cons, length_decimal] at short
    exact absurd short (by decide)
  have isTime : fits dateTimeRegex (time ++ '.' :: decimal 3 (m % 1000) ++ offsetText) = true := by
    rw [dateTimeRegex_eq, List.append_assoc, List.cons_append]
    exact fits_append fit (fits_cons _ (fits_append (fits_decimal _ _) (by decide)))
  have head : (time ++ '.' :: decimal 3 (m % 1000)).length = 23 := by
    rw [List.length_append, size, List.length_cons, length_decimal]
  unfold dateStringToMillis
  rw [if_neg notDate, if_pos isTime, ← head, List.take_left, List.drop_left, parsed]
  exact congrArg Except.ok ((sub_zero _).trans (totalMilliseconds_millis m))

/-- A day is printed as a date, which is read back. -/
theorem roundTrips_date (documented : Documented boost) (bound : m / millisPerDay ≤ lastDay)
    (whole : millisPerDay ∣ m) : RoundTrips boost m false := by
  obtain ⟨year, month, dayOfMonth, printed⟩ := documented.printsDate _ bound
  obtain ⟨day, rfl⟩ := whole
  rw [Nat.mul_div_cancel_left day (by decide)] at bound printed
  have start : ((millisPerDay * day : ℕ) : ℤ) * 1000 = day * (ticksPerDay : ℕ) := by
    unfold millisPerDay ticksPerDay
    push_cast
    ring
  refine ⟨dateForm year month dayOfMonth, ?_, ?_⟩
  · unfold millisToDateString
    rw [if_neg (by decide), start, Int.mul_ediv_cancel _ (by decide), printed]
    rfl
  · unfold dateStringToMillis
    rw [if_pos (fits_dateForm _ _ _), documented.parsesDate day bound _ printed]
    refine congrArg Except.ok ?_
    rw [← start, totalMilliseconds_millis]

/-- A number of milliseconds up to the end of the year 9999 is read back from its printed time exactly where it is
not one of whole seconds, and from its date where it is one of whole days. -/
theorem timestamps_roundTrip_iff (boost : Boost) (documented : Documented boost) (m : ℕ)
    (bound : m < (lastDay + 1) * millisPerDay) :
    (RoundTrips boost m true ∧ (millisPerDay ∣ m → RoundTrips boost m false) ↔ m % 1000 ≠ 0) ∧
      (millisPerDay ∣ m → RoundTrips boost m false) := by
  have inYears : m / millisPerDay ≤ lastDay := Nat.lt_succ_iff.mp ((Nat.div_lt_iff_lt_mul (by decide)).mpr bound)
  have dates : millisPerDay ∣ m → RoundTrips boost m false := roundTrips_date documented inYears
  obtain ⟨year, month, dayOfMonth, printed⟩ := documented.printsDate _ inYears
  have encoded := millisToDateString_time documented inYears printed
  refine ⟨⟨?_, fun fraction => ⟨?_, dates⟩⟩, dates⟩
  · intro both whole
    obtain ⟨text, sent, received⟩ := both.1
    rw [encoded, if_pos whole] at sent
    rw [← Except.ok.inj sent, dateStringToMillis_offset] at received
    cases received
  · rw [if_neg fraction] at encoded
    exact ⟨_, encoded, dateStringToMillis_time documented inYears printed⟩

/-- The day number of the epoch. -/
abbrev epoch : ℕ := 2440588

/-- The printed date. -/
def gregorianPrint (day : ℤ) : Except String Text :=
  let date := Gregorian.date (epoch + day.toNat)
  if day < 0 ∨ (lastDay : ℕ) < day then .error "Year is out of valid range: 1400..9999"
  else .ok (dateForm date.year date.month date.day)

/-- The number that `width` digits behind `start` stand for. -/
def field (text : Text) (start width : ℕ) : ℕ := value ((text.drop start).take width)

/-- The date at the front of a text, as a day. -/
def gregorianParse (text : Text) : ℤ :=
  (Gregorian.Date.number ⟨field text 0 4, field text 5 2, field text 8 2⟩ : ℕ) - (epoch : ℕ)

/-- The time of day behind a date. -/
def clock (text : Text) : ℕ := field text 11 2 * 3600 + field text 14 2 * 60 + field text 17 2

/-- Boost on texts of the extended form, from the epoch on, with the Gregorian calendar. -/
def gregorian : Boost where
  dateToIsoExtendedString := gregorianPrint
  fromSimpleString text := .ok (gregorianParse text)
  timeToIsoExtendedString time := do
    let date ← gregorianPrint (time / ticksPerDay)
    let seconds := (time / 10 ^ 6 % (24 * 3600)).toNat
    let micros := (time % 10 ^ 6).toNat
    return timeForm date seconds ++ if micros = 0 then [] else '.' :: decimal 6 micros
  fromIsoExtendedString text :=
    let places := text.length - 20
    .ok (gregorianParse text * (ticksPerDay : ℕ) + clock text * 10 ^ 6 +
      (value (text.drop 20) * 10 ^ (6 - places) : ℕ))

variable {start width n : ℕ} {front rest : Text}

theorem field_eq (form : text = front ++ (decimal width n ++ rest)) (place : front.length = start) :
    field text start width = n % 10 ^ width := by
  have taken := @List.take_left _ (decimal width n) rest
  rw [length_decimal] at taken
  rw [field, form, ← place, List.drop_left, taken, value_decimal]

theorem gregorianPrint_eq (bound : day ≤ lastDay) : gregorianPrint day =
    .ok (dateForm (Gregorian.date (epoch + day)).year (Gregorian.date (epoch + day)).month
      (Gregorian.date (epoch + day)).day) := by
  unfold gregorianPrint
  rw [if_neg (by omega), Int.toNat_natCast]

theorem gregorianParse_dateForm {year month dayOfMonth : ℕ} (yearBound : year < 10 ^ 4) (monthBound : month < 10 ^ 2)
    (dayBound : dayOfMonth < 10 ^ 2) (rest : Text) :
    gregorianParse (dateForm year month dayOfMonth ++ rest) =
      (Gregorian.Date.number ⟨year, month, dayOfMonth⟩ : ℕ) - (epoch : ℕ) := by
  have first : field (dateForm year month dayOfMonth ++ rest) 0 4 = year % 10 ^ 4 :=
    @field_eq _ 0 4 _ [] _ (List.append_assoc _ _ _) rfl
  have second : field (dateForm year month dayOfMonth ++ rest) 5 2 = month % 10 ^ 2 :=
    @field_eq _ 5 2 _ (decimal 4 year ++ ['-']) ('-' :: (decimal 2 dayOfMonth ++ rest)) (by simp [dateForm])
      (by rw [List.length_append, length_decimal]; rfl)
  have third : field (dateForm year month dayOfMonth ++ rest) 8 2 = dayOfMonth % 10 ^ 2 :=
    @field_eq _ 8 2 _ (decimal 4 year ++ '-' :: (decimal 2 month ++ ['-'])) rest (by simp [dateForm])
      (by rw [List.length_append, length_decimal, List.length_cons, List.length_append, length_decimal]; rfl)
  rw [gregorianParse, first, second, third, Nat.mod_eq_of_lt yearBound, Nat.mod_eq_of_lt monthBound,
    Nat.mod_eq_of_lt dayBound]

theorem gregorianParse_print (bound : day ≤ lastDay) (printed : gregorianPrint day = .ok date) (rest : Text) :
    gregorianParse (date ++ rest) = day := by
  have late : Gregorian.yearZero ≤ epoch + day := by
    unfold Gregorian.yearZero epoch
    omega
  have inYears : epoch + day < 5373485 := by
    unfold epoch
    unfold lastDay at bound
    omega
  have year := Gregorian.year_lt inYears
  have others := Gregorian.date_bounds (epoch + day)
  rw [← Except.ok.inj ((gregorianPrint_eq bound).symm.trans printed),
    gregorianParse_dateForm (by omega) (by omega) (by omega)]
  change (((Gregorian.date (epoch + day)).number : ℕ) : ℤ) - (epoch : ℕ) = day
  rw [Gregorian.number_date late, Nat.cast_add, add_sub_cancel_left]

theorem clock_timeForm (size : date.length = 10) (bound : seconds < 24 * 3600) (rest : Text) :
    clock (timeForm date seconds ++ rest) = seconds := by
  have hours : field (timeForm date seconds ++ rest) 11 2 = seconds / 3600 % 10 ^ 2 :=
    @field_eq _ 11 2 _ (date ++ ['T'])
      (':' :: (decimal 2 (seconds / 60 % 60) ++ ':' :: (decimal 2 (seconds % 60) ++ rest)))
      (by simp [timeForm]) (by rw [List.length_append, size]; rfl)
  have minutes : field (timeForm date seconds ++ rest) 14 2 = seconds / 60 % 60 % 10 ^ 2 :=
    @field_eq _ 14 2 _ (date ++ 'T' :: (decimal 2 (seconds / 3600) ++ [':']))
      (':' :: (decimal 2 (seconds % 60) ++ rest))
      (by simp [timeForm]) (by simp [size])
  have others : field (timeForm date seconds ++ rest) 17 2 = seconds % 60 % 10 ^ 2 :=
    @field_eq _ 17 2 _
      (date ++ 'T' :: (decimal 2 (seconds / 3600) ++ ':' :: (decimal 2 (seconds / 60 % 60) ++ [':']))) rest
      (by simp [timeForm]) (by simp [size])
  rw [clock, hours, minutes, others]
  omega

theorem length_timeForm (size : date.length = 10) (seconds : ℕ) : (timeForm date seconds).length = 19 := by
  simp [timeForm, size]

/-- The Gregorian calendar is as the hypotheses ask. -/
theorem gregorian_documented : Documented gregorian where
  printsDate day bound := ⟨_, _, _, gregorianPrint_eq bound⟩
  parsesDate day bound date printed := by
    have parsed := gregorianParse_print bound printed []
    rw [List.append_nil] at parsed
    exact congrArg Except.ok parsed
  printsTime day bound date printed seconds secondsBound micros microsBound := by
    have dayOf : ticks day seconds micros / (ticksPerDay : ℕ) = day := by
      unfold ticks ticksPerDay
      omega
    have secondsOf : (ticks day seconds micros / 10 ^ 6 % (24 * 3600)).toNat = seconds := by
      unfold ticks ticksPerDay
      omega
    have microsOf : (ticks day seconds micros % 10 ^ 6).toNat = micros := by
      unfold ticks ticksPerDay
      omega
    have printed' : gregorianPrint day = .ok date := printed
    change (gregorianPrint (ticks day seconds micros / (ticksPerDay : ℕ)) >>= _) = _
    rw [dayOf, printed']
    dsimp only [bind, Except.bind]
    rw [secondsOf, microsOf]
    rfl
  parsesTime day bound date printed seconds secondsBound places placesBound _ fraction fractionBound := by
    have size : date.length = 10 := by
      rw [← Except.ok.inj ((gregorianPrint_eq bound).symm.trans printed)]
      simp [dateForm]
    have whole := length_timeForm size seconds
    have behind : (timeForm date seconds ++ '.' :: decimal places fraction).drop 20 = decimal places fraction := by
      have dotted : (timeForm date seconds ++ ['.']).length = 20 := by rw [List.length_append, whole]; rfl
      rw [List.append_cons, ← dotted, List.drop_left]
    have placesOf : (timeForm date seconds ++ '.' :: decimal places fraction).length - 20 = places := by
      rw [List.length_append, whole, List.length_cons, length_decimal]
      omega
    have clockOf := clock_timeForm size secondsBound ('.' :: decimal places fraction)
    have dayOf : gregorianParse (timeForm date seconds ++ '.' :: decimal places fraction) = day := by
      rw [timeForm, List.append_assoc]
      exact gregorianParse_print bound printed _
    change Except.ok (gregorianParse _ * (ticksPerDay : ℕ) + _ + _) = _
    rw [dayOf, clockOf, placesOf, behind, value_decimal, Nat.mod_eq_of_lt fractionBound]
    rfl

/-- The first of January of 1970, at `00:00:01.234`, comes back. -/
theorem timestamps_roundTrip_iff_oneTime :
    (RoundTrips gregorian 1234 true ∧ (millisPerDay ∣ 1234 → RoundTrips gregorian 1234 false) ↔
        1234 % 1000 ≠ 0) ∧
      (millisPerDay ∣ 1234 → RoundTrips gregorian 1234 false) :=
  timestamps_roundTrip_iff gregorian gregorian_documented 1234 (by decide)

/-- `00:00:01` is printed as `"+0000"`, which is refused. -/
theorem whole_second_refused :
    millisToDateString gregorian 1000 true = .ok ['+', '0', '0', '0', '0'] ∧ ¬ RoundTrips gregorian 1000 true := by
  have sent : millisToDateString gregorian 1000 true = .ok ['+', '0', '0', '0', '0'] := by rfl
  refine ⟨sent, fun both => ?_⟩
  obtain ⟨text, sent', received⟩ := both
  rw [← Except.ok.inj (sent.symm.trans sent')] at received
  exact absurd (received.symm.trans (dateStringToMillis_offset gregorian)) (by rintro ⟨⟩)

end Gbp.TimeConverter
