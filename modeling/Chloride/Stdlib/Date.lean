import Chloride.Numerics.Calendar
import Chloride.Runtime.Computation
import Chloride.Runtime.FloorDivision

/-!
# Setting the fields of a date

The getters and the setters of the class `Date` of `stdlib/date/init.ar`. A date is a timestamp in milliseconds. A
getter takes the whole seconds of it apart, and a setter takes them apart and puts them together again with one of the
fields replaced, by functions of `stdlib/date/native/main.c` on `gmtime` and `timegm` (`NativeTime`). The seconds are
`self.__ts // 1000`, which the machine rounds to zero for an integer before 1970, and a setter leaves no milliseconds.

`lens_iff` says for which timestamps the setters are lenses all the same.
-/

namespace Chloride

namespace Date

/-- The arguments of `time_from_parts_utc`. -/
structure Parts where
  year : Number
  month : Number
  day : Number
  hour : Number
  minute : Number
  second : Number

/-- What the functions `time_parts_get_year` to `time_parts_get_second` give. -/
def partsOf (t : CivilTime) : Parts where
  year := numberOf t.year
  month := numberOf t.month
  day := numberOf t.day
  hour := numberOf t.hour
  minute := numberOf t.minute
  second := numberOf t.second

/-- `time_to_parts_utc` and `time_from_parts_utc` on numbers, inverse to each other between the integers and the fields
that name a time. -/
structure NativeTime where
  timeToPartsUtc : Number → ExceptT ArErr Option CivilTime
  timeFromPartsUtc : Parts → ExceptT ArErr Option Number
  from_to (seconds : ℤ) : ∃ t : CivilTime, t.Valid ∧ timeToPartsUtc (numberOf seconds) = pure t ∧
    timeFromPartsUtc (partsOf t) = pure (numberOf seconds)
  to_from (t : CivilTime) (valid : t.Valid) : ∃ seconds : ℤ,
    timeFromPartsUtc (partsOf t) = pure (numberOf seconds) ∧ timeToPartsUtc (numberOf seconds) = pure t

/-! ## The class -/

/-- `unix`, where `ts` is the timestamp. -/
def unix (ts : Number) : ExceptT ArErr Option Number := ExceptT.mk (doFloorDivision ts (.i64 1000))

variable (native : NativeTime) (ts : Number)

/-- `__parts` -/
def parts : ExceptT ArErr Option CivilTime := do native.timeToPartsUtc (← unix ts)

/-- `get_year` -/
def getYear : ExceptT ArErr Option Number := do return (partsOf (← parts native ts)).year

/-- `get_month` -/
def getMonth : ExceptT ArErr Option Number := do return (partsOf (← parts native ts)).month

/-- `get_day` -/
def getDay : ExceptT ArErr Option Number := do return (partsOf (← parts native ts)).day

/-- `get_hour` -/
def getHour : ExceptT ArErr Option Number := do return (partsOf (← parts native ts)).hour

/-- `get_minute` -/
def getMinute : ExceptT ArErr Option Number := do return (partsOf (← parts native ts)).minute

/-- `get_second` -/
def getSecond : ExceptT ArErr Option Number := do return (partsOf (← parts native ts)).second

/-- The code of a setter, that gives the timestamp: `replaced` are the arguments with the field replaced. -/
def setField (replaced : Parts → Parts) : ExceptT ArErr Option Number := do
  let p ← parts native ts
  let seconds ← native.timeFromPartsUtc (replaced (partsOf p))
  ExceptT.lift (doMultiplication seconds (.i64 1000))

/-- `set_year` -/
def setYear (value : Number) : ExceptT ArErr Option Number :=
  setField native ts fun p => ⟨value, p.month, p.day, p.hour, p.minute, p.second⟩

/-- `set_month` -/
def setMonth (value : Number) : ExceptT ArErr Option Number :=
  setField native ts fun p => ⟨p.year, value, p.day, p.hour, p.minute, p.second⟩

/-- `set_day` -/
def setDay (value : Number) : ExceptT ArErr Option Number :=
  setField native ts fun p => ⟨p.year, p.month, value, p.hour, p.minute, p.second⟩

/-- `set_hour` -/
def setHour (value : Number) : ExceptT ArErr Option Number :=
  setField native ts fun p => ⟨p.year, p.month, p.day, value, p.minute, p.second⟩

/-- `set_minute` -/
def setMinute (value : Number) : ExceptT ArErr Option Number :=
  setField native ts fun p => ⟨p.year, p.month, p.day, p.hour, value, p.second⟩

/-- `set_second` -/
def setSecond (value : Number) : ExceptT ArErr Option Number :=
  setField native ts fun p => ⟨p.year, p.month, p.day, p.hour, p.minute, value⟩

/-! ## What it should do -/

/-- A field of a date. -/
inductive Field where
  | year
  | month
  | day
  | hour
  | minute
  | second

namespace Field

/-- The getter of a field. -/
def get : Field → ExceptT ArErr Option Number
  | year => getYear native ts
  | month => getMonth native ts
  | day => getDay native ts
  | hour => getHour native ts
  | minute => getMinute native ts
  | second => getSecond native ts

/-- The setter of a field. -/
def set : Field → Number → ExceptT ArErr Option Number
  | year => setYear native ts
  | month => setMonth native ts
  | day => setDay native ts
  | hour => setHour native ts
  | minute => setMinute native ts
  | second => setSecond native ts

/-- The field of a time. -/
def of (t : CivilTime) : Field → ℤ
  | year => t.year
  | month => t.month
  | day => t.day
  | hour => t.hour
  | minute => t.minute
  | second => t.second

/-- The time with the field replaced. -/
def put (t : CivilTime) (value : ℤ) : Field → CivilTime
  | year => { t with year := value }
  | month => { t with month := value }
  | day => { t with day := value }
  | hour => { t with hour := value }
  | minute => { t with minute := value }
  | second => { t with second := value }

end Field

/-- The whole seconds of a timestamp, and the milliseconds of it that are no whole second. -/
def wholeSeconds : ℤ := ⌊ts.toRat / 1000⌋

def subSecond : ℚ := ts.toRat - 1000 * wholeSeconds ts

/-- The setters are lenses: the getters give the fields of the whole seconds, a value that is set is the one that is got
and nothing else has changed, to set what is got changes nothing, and of two values the last one stands. -/
structure Lens : Prop where
  get : ∃ t, native.timeToPartsUtc (numberOf (wholeSeconds ts)) = pure t ∧
    ∀ f : Field, f.get native ts = pure (numberOf (f.of t))
  set_get : ∀ t, native.timeToPartsUtc (numberOf (wholeSeconds ts)) = pure t → ∀ (f : Field) (value : ℤ),
    (f.put t value).Valid → ∃ ts', f.set native ts (numberOf value) = pure ts' ∧
      f.get native ts' = pure (numberOf value) ∧ (∀ g ≠ f, g.get native ts' = g.get native ts) ∧
      subSecond ts' = subSecond ts
  get_set : ∀ f : Field, (do f.set native ts (← f.get native ts)) = (pure ts : ExceptT ArErr Option Number)
  set_set : ∀ t, native.timeToPartsUtc (numberOf (wholeSeconds ts)) = pure t → ∀ (f : Field) (value last : ℤ),
    (f.put t value).Valid → (f.put t last).Valid →
      (do f.set native (← f.set native ts (numberOf value)) (numberOf last)) = f.set native ts (numberOf last)

/-! ## The whole seconds -/

section

variable {native : NativeTime} {ts : Number}

/-- The seconds of a timestamp for which the machine does not round to zero. -/
theorem unix_of_not_rounded {ts : NumberObject} (h : ¬RoundedToZero ts.1 (.i64 1000)) :
    unix ts.1 = pure (numberOf (wholeSeconds ts.1)) := by
  have hdown := (roundedDown_iff ts ⟨.i64 1000, trivial⟩).mpr h
  obtain ⟨c, hc, hvalue⟩ := (if_neg (by decide)).mp hdown.floorDivision.1
  rw [NumberObject.eq_numberOf hvalue] at hc
  exact congrArg ExceptT.mk hc

/-- The other timestamps have whole seconds as well. -/
theorem exists_unix (ts : NumberObject) : ∃ seconds : ℤ, unix ts.1 = pure (numberOf seconds) := by
  by_cases hround : RoundedToZero ts.1 (.i64 1000)
  · obtain ⟨n | q, hn⟩ := ts
    · -- The quotient of C.
      have hdivisor : (1000 : Int64) ≠ 0 := by decide
      have hfits := (Signed64.fits_tdiv_iff (a := n) hdivisor).mpr fun h => absurd h.2 (by decide)
      obtain ⟨c, hc, -⟩ := Signed64.quot_of_fits hdivisor hfits
      refine ⟨c.toInt, ?_⟩
      rw [(numberOf_eq_i64 (n := c)).mpr rfl]
      have hdiv : doFloorDivision (.i64 n) (.i64 1000) = some (.ok (.i64 c)) := by
        rw [doFloorDivision, roundedDivision, if_neg hdivisor, hc]
        rfl
      exact congrArg ExceptT.mk hdiv
    · exact absurd hround not_false
  · exact ⟨_, unix_of_not_rounded hround⟩

theorem wholeSeconds_numberOf (seconds : ℤ) : wholeSeconds (numberOf (1000 * seconds)) = seconds := by
  rw [wholeSeconds, numberOf_toRat, mul_div_cancel_left₀ _ (by norm_num), Int.floor_intCast]

theorem subSecond_numberOf (seconds : ℤ) : subSecond (numberOf (1000 * seconds)) = 0 := by
  rw [subSecond, wholeSeconds_numberOf, numberOf_toRat, sub_self]

theorem unix_numberOf (seconds : ℤ) : unix (numberOf (1000 * seconds)) = pure (numberOf seconds) := by
  have hround : ¬RoundedToZero (numberOf (1000 * seconds)) (.i64 1000) := by
    cases hn : numberOf (1000 * seconds) with
    | mpq q => exact not_false
    | i64 n =>
      have hvalue : 1000 * seconds = n.toInt := by exact_mod_cast numberOf_eq_i64.mp hn
      rintro (hleast | ⟨hdvd, -⟩)
      · exact absurd hleast.2 (by decide)
      · exact hdvd ⟨seconds, hvalue.symm⟩
  let ts : NumberObject := ⟨_, numberOf_normal (1000 * seconds)⟩
  have h : unix ts.1 = _ := unix_of_not_rounded hround
  rwa [wholeSeconds_numberOf] at h

/-! ## The fields -/

/-- The fields of the time that a timestamp is taken apart into are what the getters give. -/
theorem get_eq {t : CivilTime} (h : parts native ts = pure t) (f : Field) :
    f.get native ts = pure (numberOf (f.of t)) := by
  cases f <;> (simp only [Field.get, getYear, getMonth, getDay, getHour, getMinute, getSecond, h, pure_bind]; rfl)

/-- A setter gives the whole seconds of the time with the field replaced. -/
theorem set_eq {t : CivilTime} (h : parts native ts = pure t) {f : Field} {value seconds : ℤ}
    (hfrom : native.timeFromPartsUtc (partsOf (f.put t value)) = pure (numberOf seconds)) :
    f.set native ts (numberOf value) = pure (numberOf (1000 * seconds)) := by
  have hmul : (ExceptT.lift (doMultiplication (numberOf seconds) (.i64 1000)) : ExceptT ArErr Option Number) =
      pure (numberOf (1000 * seconds)) := by
    have hfactor : numberOf 1000 = .i64 1000 := numberOf_eq_i64.mpr (by decide)
    have hcomputes := (doMultiplication_computes seconds 1000 (numberOf (1000 * seconds))).mpr
      ⟨trivial, by rw [mul_comm]⟩
    rwa [hfactor] at hcomputes
  have hset : f.set native ts (numberOf value) = setField native ts fun _ => partsOf (f.put t value) := by
    cases f <;>
      (simp only [Field.set, setYear, setMonth, setDay, setHour, setMinute, setSecond, setField, h, pure_bind]; rfl)
  rw [hset, setField, h, pure_bind, hfrom, pure_bind, hmul]

theorem parts_numberOf {t : CivilTime} {seconds : ℤ} (h : native.timeToPartsUtc (numberOf seconds) = pure t) :
    parts native (numberOf (1000 * seconds)) = pure t := by
  rw [parts, unix_numberOf, pure_bind, h]

/-- A getter after a setter of a valid date, of whole seconds. -/
theorem exists_set {t : CivilTime} (h : parts native ts = pure t) {f : Field} {value : ℤ}
    (hvalid : (f.put t value).Valid) : ∃ seconds : ℤ,
      f.set native ts (numberOf value) = pure (numberOf (1000 * seconds)) ∧
        parts native (numberOf (1000 * seconds)) = pure (f.put t value) := by
  obtain ⟨seconds, hfrom, hto⟩ := native.to_from _ hvalid
  exact ⟨seconds, set_eq h hfrom, parts_numberOf hto⟩

@[simp]
theorem Field.of_put (t : CivilTime) (value : ℤ) (f : Field) : f.of (f.put t value) = value := by
  cases f <;> rfl

theorem Field.of_put_of_ne (t : CivilTime) (value : ℤ) {f g : Field} (h : g ≠ f) : g.of (f.put t value) = g.of t := by
  cases f <;> cases g <;> first | rfl | exact absurd rfl h

@[simp]
theorem Field.put_of (t : CivilTime) (f : Field) : f.put t (f.of t) = t := by
  cases f <;> rfl

@[simp]
theorem Field.put_put (t : CivilTime) (value last : ℤ) (f : Field) : f.put (f.put t value) last = f.put t last := by
  cases f <;> rfl

/-! ## Timestamps without milliseconds -/

theorem pure_inj {α : Type} {a b : α} (h : (pure a : ExceptT ArErr Option α) = pure b) : a = b :=
  Except.ok.inj (Option.some.inj h)

/-- For a number of whole seconds the setters are lenses. -/
theorem lens_numberOf (native : NativeTime) (seconds : ℤ) : Lens native (numberOf (1000 * seconds)) := by
  obtain ⟨t, hvalid, hto, hfrom⟩ := native.from_to seconds
  have hparts := parts_numberOf hto
  have hfields : ∀ t', native.timeToPartsUtc (numberOf (wholeSeconds (numberOf (1000 * seconds)))) = pure t' →
      t' = t := by
    intro t' ht'
    rw [wholeSeconds_numberOf, hto] at ht'
    exact (pure_inj ht').symm
  constructor
  case get => exact ⟨t, by rw [wholeSeconds_numberOf, hto], get_eq hparts⟩
  case set_get =>
    intro t' ht' f value hvalue
    obtain rfl := hfields t' ht'
    obtain ⟨seconds', hset, hparts'⟩ := exists_set hparts hvalue
    refine ⟨_, hset, ?_, fun g hg => ?_, ?_⟩
    · rw [get_eq hparts', Field.of_put]
    · rw [get_eq hparts', get_eq hparts, Field.of_put_of_ne _ _ hg]
    · rw [subSecond_numberOf, subSecond_numberOf]
  case get_set =>
    intro f
    rw [get_eq hparts, pure_bind, set_eq hparts (by rw [Field.put_of]; exact hfrom)]
  case set_set =>
    intro t' ht' f value last hvalue hlast
    obtain rfl := hfields t' ht'
    obtain ⟨seconds', hset, hparts'⟩ := exists_set hparts hvalue
    obtain ⟨seconds'', hfrom', -⟩ := native.to_from _ hlast
    rw [hset, pure_bind, set_eq hparts hfrom', set_eq hparts' (by rw [Field.put_put]; exact hfrom')]

/-- What a setter has set is whole seconds, so that a timestamp that it leaves as it is has no milliseconds. -/
theorem whole_of_get_set {ts : NumberObject} {f : Field}
    (h : (do f.set native ts.1 (← f.get native ts.1)) = (pure ts.1 : ExceptT ArErr Option Number)) :
    ∃ seconds : ℤ, ts.1.toRat = 1000 * seconds := by
  obtain ⟨seconds, hunix⟩ := exists_unix ts
  obtain ⟨t, -, hto, hfrom⟩ := native.from_to seconds
  have hparts : parts native ts.1 = pure t := by rw [parts, hunix, pure_bind, hto]
  rw [get_eq hparts, pure_bind, set_eq hparts (by rw [Field.put_of]; exact hfrom)] at h
  exact ⟨seconds, by rw [← pure_inj h, numberOf_toRat]⟩

end

/-- The setters are lenses exactly for the timestamps without milliseconds. -/
theorem lens_iff (native : NativeTime) (ts : NumberObject) :
    Lens native ts.1 ↔ ∃ seconds : ℤ, ts.1.toRat = 1000 * seconds := by
  constructor
  · intro h
    exact whole_of_get_set (h.get_set .second)
  · rintro ⟨seconds, h⟩
    rw [NumberObject.eq_numberOf h]
    exact lens_numberOf native seconds

/-! ## A date with milliseconds -/

/-- The integer that a number is. -/
def integerOf (n : Number) : ExceptT ArErr Option ℤ :=
  if n.toRat.den = 1 then pure n.toRat.num else throw ⟨"RuntimeError", "number has to be i64"⟩

theorem integerOf_numberOf (z : ℤ) : integerOf (numberOf z) = pure z := by
  rw [integerOf, numberOf_toRat, Rat.den_intCast, if_pos rfl, Rat.num_intCast]

/-- `gmtime` and `timegm` of the Gregorian calendar. -/
def gregorian : NativeTime where
  timeToPartsUtc seconds := do return CivilTime.ofSeconds (← integerOf seconds)
  timeFromPartsUtc p := do
    let t : CivilTime := ⟨← integerOf p.year, ← integerOf p.month, ← integerOf p.day, ← integerOf p.hour,
      ← integerOf p.minute, ← integerOf p.second⟩
    return numberOf t.toSeconds
  from_to seconds := by
    refine ⟨_, CivilTime.valid_ofSeconds seconds, ?_, ?_⟩
    · rw [integerOf_numberOf, pure_bind]
    · have hseconds := CivilTime.toSeconds_ofSeconds seconds
      simp only [partsOf, integerOf_numberOf, pure_bind]
      exact congrArg (fun n : ℤ => pure (numberOf n)) hseconds
  to_from t valid := by
    refine ⟨t.toSeconds, ?_, ?_⟩
    · simp only [partsOf, integerOf_numberOf, pure_bind]
    · rw [integerOf_numberOf, pure_bind, CivilTime.ofSeconds_toSeconds valid]

/-- Half a second after the start of 1970 the setter of the second loses it. -/
theorem not_forall_lens : ¬∀ (native : NativeTime) (ts : NumberObject), Lens native ts.1 := by
  intro h
  have hlens := h gregorian ⟨.i64 500, trivial⟩
  obtain ⟨seconds, hseconds⟩ := whole_of_get_set (hlens.get_set .second)
  have hvalue : (Number.i64 500).toRat = (500 : ℤ) := congrArg Int.cast (by decide : (500 : Int64).toInt = 500)
  have hwhole : (500 : ℤ) = 1000 * seconds := by exact_mod_cast hvalue.symm.trans hseconds
  omega

end Date

end Chloride
