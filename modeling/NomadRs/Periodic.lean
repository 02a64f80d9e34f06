import NomadRs.Chrono
import NomadRs.Error
import NomadRs.Timetable

/-!
# Periodic jobs

When a periodic job is launched next. `PeriodicConfig.next` is given a reference time, but it
enumerates the firing times of the schedule from the present on: it answers with the next one after
the reference exactly if none has fired between the two (`next_least_iff`). The `cron` and `chrono`
crates are parameters.
-/

namespace NomadRs

/-- A parsed cron spec fires at whole seconds. -/
structure Schedule extends Timetable where
  whole : ∀ t ∈ fires, timestamp t * second = t

/-- The parts of the `cron` and `chrono` crates that a periodic job calls. -/
class CronCrates where
  fromStr : String → Except String Schedule
  fromTimestamp : ℤ → Option DateTime
  fromTimestamp_eq_some : ∀ {secs t}, fromTimestamp secs = some t → t = secs * second

structure PeriodicConfig where
  spec : String
  timeZone : String

namespace PeriodicConfig

section Config
variable [CronCrates]

def validate (self : PeriodicConfig) : Result Unit := do
  let _ ← (CronCrates.fromStr self.spec).mapError fun e =>
    .config s!"invalid cron spec '{self.spec}': {e}"
  requireNonEmpty self.timeZone (.config "periodic time_zone cannot be empty")

/-- `now` is what the clock reads when the enumeration begins. -/
def next (self : PeriodicConfig) (now : DateTime) (afterUnix : ℤ) : Result ℤ := do
  let schedule ← (CronCrates.fromStr self.spec).mapError fun e =>
    .config s!"invalid cron spec: {e}"
  let after ← okOr (CronCrates.fromTimestamp afterUnix) (.runtime "invalid unix timestamp")
  let next ← okOr (schedule.find now after) (.runtime "no upcoming firing time")
  return timestamp next

/-- The launches of a job whose every reference time is the launch before; `clock` is what the
clock reads at each call. -/
def launches (self : PeriodicConfig) : ℤ → List DateTime → List ℤ
  | _, [] => []
  | afterUnix, now :: clock =>
    match self.next now afterUnix with
    | .ok launch => launch :: self.launches launch clock
    | .error _ => []

theorem next_ne_config {config : PeriodicConfig} (h : config.validate = .ok ()) (now : DateTime)
    (afterUnix : ℤ) (message : String) :
    config.next now afterUnix ≠ .error (.config message) := by
  rw [validate, Result.bind_eq_ok] at h
  obtain ⟨schedule, hparse, _⟩ := h
  rw [next, mapError_eq_ok.1 hparse]
  cases CronCrates.fromTimestamp afterUnix with
  | none => exact fun herror => by cases herror
  | some after =>
      cases hfind : schedule.find now after <;>
        simp [okOr, Except.mapError, bind, Except.bind, pure, Except.pure, hfind]

variable {config : PeriodicConfig} {schedule : Schedule} {now : DateTime} {afterUnix : ℤ}

/-- The firing times after a reference time are all still to come, and the reference time is one
that `chrono` can represent; unless there are none. -/
def Punctual (schedule : Schedule) (now : DateTime) (afterUnix : ℤ) : Prop :=
  (∃ t ∈ schedule.fires, afterUnix * second < t) →
    (CronCrates.fromTimestamp afterUnix).isSome ∧
      ∀ t ∈ schedule.fires, afterUnix * second < t → now < t

def AllPunctual (schedule : Schedule) : ℤ → List DateTime → Prop
  | _, [] => True
  | afterUnix, now :: clock => Punctual schedule now afterUnix ∧
      ∀ t, schedule.next (afterUnix * second) = some t →
        AllPunctual schedule (timestamp t) clock

/-- The reference time is moved up to the present. -/
theorem next_eq_ok_iff (hparse : CronCrates.fromStr config.spec = .ok schedule) {launch : ℤ} :
    config.next now afterUnix = .ok launch ↔ (CronCrates.fromTimestamp afterUnix).isSome ∧
      ∃ t, schedule.next (max now (afterUnix * second)) = some t ∧ timestamp t = launch := by
  simp only [next, Result.bind_eq_ok, mapError_eq_ok, okOr_eq_ok, hparse, Except.ok.injEq,
    exists_eq_left']
  constructor
  · rintro ⟨after, hafter, t, hfind, hlaunch⟩
    rw [Timetable.find_eq, CronCrates.fromTimestamp_eq_some hafter] at hfind
    exact ⟨Option.isSome_of_eq_some hafter, t, hfind, Except.ok.inj hlaunch⟩
  · rintro ⟨hvalid, t, hnext, hlaunch⟩
    obtain ⟨after, hafter⟩ := Option.isSome_iff_exists.1 hvalid
    rw [← CronCrates.fromTimestamp_eq_some hafter, ← Timetable.find_eq] at hnext
    exact ⟨after, hafter, t, hnext, congrArg _ hlaunch⟩

omit [CronCrates] in
theorem timestamp_inj {t u : DateTime} (ht : t ∈ schedule.fires) (hu : u ∈ schedule.fires)
    (h : timestamp t = timestamp u) : t = u := by
  rw [← schedule.whole t ht, ← schedule.whole u hu, h]

/-- A call with a later firing time left answers with the first of them exactly if it is
punctual. -/
theorem next_eq_first_iff (hparse : CronCrates.fromStr config.spec = .ok schedule)
    {first : DateTime} (hfirst : schedule.next (afterUnix * second) = some first) :
    config.next now afterUnix = .ok (timestamp first) ↔ Punctual schedule now afterUnix := by
  obtain ⟨⟨hfires, hlater⟩, hleast⟩ := schedule.isLeast_of_next hfirst
  rw [next_eq_ok_iff hparse]
  constructor
  · rintro ⟨hvalid, t, hnext, hsame⟩ -
    obtain ⟨ht, hmax⟩ := (schedule.isLeast_of_next hnext).1
    obtain rfl : t = first := timestamp_inj ht hfires hsame
    exact ⟨hvalid, fun u hu hafter =>
      (lt_of_le_of_lt (le_max_left _ _) hmax).trans_le (hleast ⟨hu, hafter⟩)⟩
  · intro hpunctual
    obtain ⟨hvalid, hnow⟩ := hpunctual ⟨first, hfires, hlater⟩
    refine ⟨hvalid, first, ?_, rfl⟩
    rw [← hfirst]
    exact Timetable.next_eq_next (le_max_right _ _) fun v hv hafter =>
      max_lt (hnow v hv hafter) hafter

/-- The launches are the firing times one after another exactly if all calls are punctual. -/
theorem launches_eq_iff (hparse : CronCrates.fromStr config.spec = .ok schedule)
    (clock : List DateTime) : config.launches afterUnix clock =
      (schedule.take (afterUnix * second) clock.length).map timestamp ↔
    AllPunctual schedule afterUnix clock := by
  induction clock generalizing afterUnix with
  | nil => simp [launches, AllPunctual, Timetable.take]
  | cons now clock ih =>
      rw [launches, AllPunctual, List.length_cons, Timetable.take]
      cases hfirst : schedule.next (afterUnix * second) with
      | none =>
          have hnone := schedule.le_of_next_eq_none hfirst
          have hpunctual : Punctual schedule now afterUnix := by
            rintro ⟨t, ht, hlater⟩
            exact absurd (hnone t ht) (not_le.2 hlater)
          refine iff_of_true ?_ ⟨hpunctual, by simp⟩
          cases hcall : config.next now afterUnix with
          | error e => rfl
          | ok launch =>
              obtain ⟨_, t, hnext, _⟩ := (next_eq_ok_iff hparse).1 hcall
              obtain ⟨ht, hmax⟩ := (schedule.isLeast_of_next hnext).1
              exact absurd (hnone t ht) (not_le.2 (lt_of_le_of_lt (le_max_right _ _) hmax))
      | some first =>
          have hwhole := schedule.whole first (schedule.isLeast_of_next hfirst).1.1
          have hrest := @ih (timestamp first)
          rw [hwhole] at hrest
          rw [← next_eq_first_iff hparse hfirst, List.map_cons]
          cases hcall : config.next now afterUnix with
          | error e => simp
          | ok launch =>
              simp only [List.cons.injEq, Except.ok.injEq, Option.some.injEq, forall_eq']
              constructor
              · rintro ⟨rfl, hlaunches⟩
                exact ⟨rfl, hrest.1 hlaunches⟩
              · rintro ⟨rfl, hpunctual⟩
                exact ⟨rfl, hrest.2 hpunctual⟩

/-- The answer is the least firing time after the reference, and repeated calls go through the
firing times one after another, exactly if the calls are punctual; then they leave none out. -/
theorem next_least_iff (hparse : CronCrates.fromStr config.spec = .ok schedule)
    (afterUnix : ℤ) :
    (∀ now, (∀ t, IsLeast (schedule.fires ∩ Set.Ioi (afterUnix * second)) t →
        config.next now afterUnix = .ok (timestamp t)) ↔ Punctual schedule now afterUnix) ∧
    (∀ clock, config.launches afterUnix clock =
        (schedule.take (afterUnix * second) clock.length).map timestamp ↔
      AllPunctual schedule afterUnix clock) ∧
    ∀ clock, AllPunctual schedule afterUnix clock → ∀ t ∈ schedule.fires,
      afterUnix * second < t → t - afterUnix * second ≤ clock.length →
        timestamp t ∈ config.launches afterUnix clock := by
  refine ⟨fun now => ?_, launches_eq_iff hparse, fun clock hclock t ht hlater hlong => ?_⟩
  · cases hfirst : schedule.next (afterUnix * second) with
    | none =>
        have hnone := schedule.le_of_next_eq_none hfirst
        refine iff_of_true (fun t ht => ?_) ?_
        · exact absurd (hnone t ht.1.1) (not_le.2 ht.1.2)
        · rintro ⟨t, ht, hlater⟩
          exact absurd (hnone t ht) (not_le.2 hlater)
    | some first =>
        rw [← next_eq_first_iff hparse hfirst]
        have hleast := schedule.isLeast_of_next hfirst
        constructor
        · exact fun h => h first hleast
        · intro h t ht
          rw [ht.unique hleast, h]
  · rw [(launches_eq_iff hparse clock).2 hclock]
    exact List.mem_map_of_mem (Timetable.mem_take ht hlater hlong)

end Config

/-! ## Every five minutes -/

def everyFiveMinutes : Schedule where
  fires := {t | 300 * second ∣ t}
  next t := some ((t / (300 * second) + 1) * (300 * second))
  isLeast_of_next {t u} h := by
    cases h
    simp only [second]
    refine ⟨⟨Dvd.intro_left _ rfl, ?_⟩, ?_⟩
    · simp only [Set.mem_Ioi]
      omega
    · rintro v ⟨⟨k, rfl⟩, hv⟩
      simp only [Set.mem_Ioi] at hv
      omega
  le_of_next_eq_none h := by cases h
  whole t ht := by
    obtain ⟨k, rfl⟩ := ht
    simp only [timestamp, second]
    omega

@[reducible] def fiveMinuteCrates : CronCrates where
  fromStr spec := if spec = "0 */5 * * * *" then .ok everyFiveMinutes else .error "other spec"
  fromTimestamp secs :=
    if -8334601228800 ≤ secs ∧ secs ≤ 8210266876799 then some (secs * second) else none
  fromTimestamp_eq_some h := by
    split at h <;> simp_all

section FiveMinutes
attribute [local instance] fiveMinuteCrates

def periodic : PeriodicConfig := { spec := "0 */5 * * * *", timeZone := "UTC" }

theorem periodic_parses : CronCrates.fromStr periodic.spec = .ok everyFiveMinutes := if_pos rfl

theorem first_after_reference : IsLeast (everyFiveMinutes.fires ∩ Set.Ioi (1000000000 * second))
    (1000000200 * second) := Timetable.next_eq_some_iff.1 (by decide)

/-- At the reference time the next launch is the one at the next full five minutes. -/
theorem next_least_iff_present :
    periodic.next (1000000000 * second) 1000000000 = .ok 1000000200 := by
  have hcall := (next_least_iff periodic_parses 1000000000).1 (1000000000 * second)
  exact hcall.2 (fun _ => ⟨rfl, fun t _ hafter => hafter⟩) _ first_after_reference

/-- Years later all firing times in between are skipped. -/
theorem launches_skipped : ¬ ∀ (config : PeriodicConfig) (schedule : Schedule),
    CronCrates.fromStr config.spec = .ok schedule →
      ∀ (now : DateTime) (afterUnix : ℤ) (t : DateTime),
        IsLeast (schedule.fires ∩ Set.Ioi (afterUnix * second)) t →
          config.next now afterUnix = .ok (timestamp t) := by
  intro h
  have hlate := h periodic everyFiveMinutes periodic_parses (1767225600 * second) 1000000000 _
    first_after_reference
  obtain ⟨_, t, hnext, hlaunch⟩ := (next_eq_ok_iff periodic_parses).1 hlate
  cases hnext
  revert hlaunch
  decide

end FiveMinutes
end PeriodicConfig
end NomadRs
