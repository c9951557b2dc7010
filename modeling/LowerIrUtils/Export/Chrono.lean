import LowerIrUtils.Export.Lower

/-!
# Round trips of dates and times

A `NaiveDateTime` is lowered to three `i32` constants, and the documentation of the crate
says how the callee puts it together again.  `Chrono.Documented` is what `chrono` documents
of the functions involved.

A `NaiveTime` may hold a leap fraction, a nanosecond from `1_000_000_000` on, at any second,
since `with_nanosecond` does not look at the second.  The constructor the callee is told to
use accepts such a fraction on the last second of a minute only.  So the encoding loses
nothing, but the decoder does not take back all of what is encoded
(`Chrono.roundTrips_iff`).
-/

namespace LowerIrUtils.Export

open Clif Sim

namespace Chrono

/-- What `chrono` documents. -/
structure Documented (C : Chrono) : Prop where
  fromNumDays_numDays : ∀ d, C.fromNumDaysFromCeOpt (C.numDaysFromCe d) = some d
  seconds_lt : ∀ t, (C.numSecondsFromMidnight t).toNat < 86400
  nanosecond_lt : ∀ t, (C.nanosecond t).toNat < 2000000000
  fromNumSeconds_eq_none_iff : ∀ secs nano, C.fromNumSecondsFromMidnightOpt secs nano = none ↔
    86400 ≤ secs.toNat ∨ 2000000000 ≤ nano.toNat ∨
      1000000000 ≤ nano.toNat ∧ secs.toNat % 60 ≠ 59
  fromNumSeconds_eq_some : ∀ {secs nano t}, C.fromNumSecondsFromMidnightOpt secs nano = some t →
    C.numSecondsFromMidnight t = secs ∧ C.nanosecond t = nano
  time_ext : ∀ {t t'}, C.numSecondsFromMidnight t = C.numSecondsFromMidnight t' →
    C.nanosecond t = C.nanosecond t' → t = t'
  andTime_date_time : ∀ dt, C.andTime (C.date dt) (C.time dt) = dt

variable (C : Chrono)

/-- The documented reconstruction of a `NaiveDateTime`.  `as u32` keeps the bits. -/
def reconstruct (days secs nano : BitVec 32) : Option C.NaiveDateTime := do
  let d ← C.fromNumDaysFromCeOpt days
  let t ← C.fromNumSecondsFromMidnightOpt secs nano
  some (C.andTime d t)

/-- Lowering an argument of a chrono type appends these lanes, whatever the type of
pointers. -/
def Lowers (arg : RustArg C) (lanes : List Lane) : Prop :=
  ∀ ptrTy bcx out, Appends bcx lanes out (arg.lower ptrTy bcx out)

/-- A time is lowered to two `I32` constants from which it is reconstructed. -/
def TimeRoundTrips (t : C.NaiveTime) : Prop :=
  ∃ secs nano : BitVec 32,
    (RustArg.jitNaiveTime t).lanes = [.const (.I32 secs), .const (.I32 nano)] ∧
    C.Lowers (.jitNaiveTime t) (RustArg.jitNaiveTime t).lanes ∧
    C.fromNumSecondsFromMidnightOpt secs nano = some t

/-- A date and time is lowered to three `I32` constants, those of the date and those of the
time, from which it is reconstructed. -/
def DateTimeRoundTrips (dt : C.NaiveDateTime) : Prop :=
  ∃ days secs nano : BitVec 32,
    (RustArg.jitNaiveDateTime dt).lanes =
      [.const (.I32 days), .const (.I32 secs), .const (.I32 nano)] ∧
    (RustArg.jitNaiveDateTime dt).lanes =
      (RustArg.jitNaiveDate (C.date dt)).lanes ++ (RustArg.jitNaiveTime (C.time dt)).lanes ∧
    C.Lowers (.jitNaiveDateTime dt) (RustArg.jitNaiveDateTime dt).lanes ∧
    C.reconstruct days secs nano = some dt

/-- The fraction is no leap fraction, or it is on the last second of a minute. -/
def Recoverable (t : C.NaiveTime) : Prop :=
  (C.nanosecond t).toNat < 1000000000 ∨ (C.numSecondsFromMidnight t).toNat % 60 = 59

variable {C}

/-- The lanes of chrono types do not depend on the type of pointers. -/
theorem lowers_jitNaiveTime (t : C.NaiveTime) :
    C.Lowers (.jitNaiveTime t) (RustArg.jitNaiveTime t).lanes :=
  fun _ bcx out ↦ RustArg.appends_lower (.jitNaiveTime t) bcx out

theorem lowers_jitNaiveDateTime (dt : C.NaiveDateTime) :
    C.Lowers (.jitNaiveDateTime dt) (RustArg.jitNaiveDateTime dt).lanes :=
  fun _ bcx out ↦ RustArg.appends_lower (.jitNaiveDateTime dt) bcx out

namespace Documented

variable (hC : C.Documented)

include hC

/-- The decoder gives back nothing but the time it was given the parts of. -/
theorem fromNumSeconds_eq_some_self {t t' : C.NaiveTime}
    (h : C.fromNumSecondsFromMidnightOpt (C.numSecondsFromMidnight t) (C.nanosecond t) = some t') :
    t' = t := by
  obtain ⟨hsecs, hnano⟩ := hC.fromNumSeconds_eq_some h
  exact hC.time_ext hsecs hnano

/-- Its parts are decoded to the time exactly if it is recoverable. -/
theorem fromNumSeconds_parts_iff (t : C.NaiveTime) :
    C.fromNumSecondsFromMidnightOpt (C.numSecondsFromMidnight t) (C.nanosecond t) = some t ↔
      C.Recoverable t := by
  have hnone := hC.fromNumSeconds_eq_none_iff (C.numSecondsFromMidnight t) (C.nanosecond t)
  have hsecs := hC.seconds_lt t
  have hnano := hC.nanosecond_lt t
  constructor
  · intro h
    rw [h] at hnone
    have hlegal := hnone.not.mp (by simp)
    by_cases hlt : (C.nanosecond t).toNat < 1000000000
    · exact .inl hlt
    · right
      omega
  · intro h
    cases hdecode : C.fromNumSecondsFromMidnightOpt (C.numSecondsFromMidnight t)
        (C.nanosecond t) with
    | some t' => rw [hC.fromNumSeconds_eq_some_self hdecode]
    | none =>
        rcases hnone.mp hdecode with hsecs' | hnano' | ⟨hleap, hsecond⟩
        · exact absurd hsecs (Nat.not_lt_of_le hsecs')
        · exact absurd hnano (Nat.not_lt_of_le hnano')
        · rcases h with hlt | hlast
          · exact absurd hlt (Nat.not_lt_of_le hleap)
          · exact absurd hlast hsecond

theorem timeRoundTrips_iff (t : C.NaiveTime) : C.TimeRoundTrips t ↔ C.Recoverable t := by
  rw [← hC.fromNumSeconds_parts_iff]
  constructor
  · rintro ⟨secs, nano, hlanes, -, hdecode⟩
    cases hlanes
    exact hdecode
  · intro hdecode
    exact ⟨_, _, rfl, lowers_jitNaiveTime t, hdecode⟩

/-- The date is always recovered, so the time decides. -/
theorem reconstruct_eq_some_iff (dt : C.NaiveDateTime) :
    C.reconstruct (C.numDaysFromCe (C.date dt)) (C.numSecondsFromMidnight (C.time dt))
        (C.nanosecond (C.time dt)) = some dt ↔ C.Recoverable (C.time dt) := by
  rw [← hC.fromNumSeconds_parts_iff, reconstruct, hC.fromNumDays_numDays]
  constructor
  · intro h
    obtain ⟨d, -, h⟩ := Option.bind_eq_some_iff.mp h
    obtain ⟨t, ht, -⟩ := Option.bind_eq_some_iff.mp h
    rw [ht, hC.fromNumSeconds_eq_some_self ht]
  · intro h
    rw [h]
    exact congrArg some (hC.andTime_date_time dt)

theorem dateTimeRoundTrips_iff (dt : C.NaiveDateTime) :
    C.DateTimeRoundTrips dt ↔ C.Recoverable (C.time dt) := by
  rw [← hC.reconstruct_eq_some_iff]
  constructor
  · rintro ⟨days, secs, nano, hlanes, -, -, hdecode⟩
    cases hlanes
    exact hdecode
  · intro hdecode
    exact ⟨_, _, _, rfl, rfl, lowers_jitNaiveDateTime dt, hdecode⟩

end Documented

/-- **Dates and times round-trip up to misplaced leap fractions.**  A date and time, or a time
alone, is lowered to its `I32` constants, and the documented reconstruction gives it back,
if and only if it has no leap fraction or is on the last second of a minute. -/
theorem roundTrips_iff (hC : C.Documented) :
    (∀ dt, C.DateTimeRoundTrips dt ↔ C.Recoverable (C.time dt)) ∧
      ∀ t, C.TimeRoundTrips t ↔ C.Recoverable t :=
  ⟨hC.dateTimeRoundTrips_iff, hC.timeRoundTrips_iff⟩

/-! ## A leap fraction at midnight -/

/-- A date as its day number and a time as its second of the day and its fraction, in the
ranges `chrono` has for them. -/
def byNumber : Chrono where
  NaiveDate := {days : BitVec 32 // -95746129 ≤ days.toInt ∧ days.toInt ≤ 95745399}
  NaiveTime := {p : BitVec 32 × BitVec 32 // p.1.toNat < 86400 ∧ p.2.toNat < 2000000000}
  NaiveDateTime :=
    {days : BitVec 32 // -95746129 ≤ days.toInt ∧ days.toInt ≤ 95745399} ×
      {p : BitVec 32 × BitVec 32 // p.1.toNat < 86400 ∧ p.2.toNat < 2000000000}
  numDaysFromCe d := d.1
  numSecondsFromMidnight t := t.1.1
  nanosecond t := t.1.2
  date := Prod.fst
  time := Prod.snd
  fromNumDaysFromCeOpt days :=
    if h : -95746129 ≤ days.toInt ∧ days.toInt ≤ 95745399 then some ⟨days, h⟩ else none
  fromNumSecondsFromMidnightOpt secs nano :=
    if h : (secs.toNat < 86400 ∧ nano.toNat < 2000000000) ∧
        (nano.toNat < 1000000000 ∨ secs.toNat % 60 = 59) then some ⟨(secs, nano), h.1⟩
    else none
  andTime := Prod.mk

theorem documented_byNumber : byNumber.Documented where
  fromNumDays_numDays d := dif_pos d.2
  seconds_lt t := t.2.1
  nanosecond_lt t := t.2.2
  fromNumSeconds_eq_none_iff secs nano := by
    show (if h : _ then _ else none) = none ↔ _
    rw [dite_eq_right_iff]
    simp only [reduceCtorEq, imp_false]
    omega
  fromNumSeconds_eq_some {secs nano t} h := by
    obtain ⟨hlegal, heq⟩ := Option.dite_none_right_eq_some.mp h
    cases heq
    exact ⟨rfl, rfl⟩
  time_ext hsecs hnano := Subtype.ext (Prod.ext hsecs hnano)
  andTime_date_time _ := rfl

/-- 2026-05-21 00:00:00 with the given fraction. -/
def midnight (nano : BitVec 32) (h : nano.toNat < 2000000000) : byNumber.NaiveDateTime :=
  (⟨739757, by decide⟩, ⟨(0, nano), by simp, h⟩)

/-- Without a leap fraction it is recovered. -/
theorem roundTrips_midnight : byNumber.DateTimeRoundTrips (midnight 500000000 (by decide)) :=
  ((roundTrips_iff documented_byNumber).1 _).mpr (.inl (by decide))

/-- With a fraction of one and a half seconds it is not: the decoder refuses it. -/
theorem midnight_not_roundTrips :
    ¬ ∀ C : Chrono, C.Documented → ∀ dt, C.DateTimeRoundTrips dt := by
  intro h
  obtain ⟨days, secs, nano, hlanes, -, -, hdecode⟩ :=
    h byNumber documented_byNumber (midnight 1500000000 (by decide))
  cases hlanes
  have hnone : byNumber.reconstruct 739757 0 1500000000 = none := rfl
  cases hnone.symm.trans hdecode

end Chrono

end LowerIrUtils.Export
