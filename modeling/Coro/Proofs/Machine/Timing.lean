import Coro.Machine.Bench
import Coro.Proofs.Compilation
import Coro.Proofs.Machine.Dispatch

/-!
Periodic hooks keep time.

The clock counts ticks in bytes, which wrap, and its counters start again and again. As long as the
scheduler is never more ticks behind than a byte can tell, no tick is lost or seen twice, and all
counters together stand for the number of dispatches.
-/

namespace Coro

variable {interval : Interval} {notes : List Note} {note : Note} {counter : UInt8}

/-- The ticks that make up an interval. -/
def Interval.ticks : Interval → Nat
  | .decisecond => 1
  | .second => 10
  | .minute => 600
  | .hour => 36000

namespace Clock

/-- A clock shows so many ticks, of which so many were dispatched. -/
structure Shows (clock : Clock) (ticks dispatches : Nat) : Prop where
  timebase : clock.timebase.toNat = ticks % 256
  seen : clock.seen.toNat = dispatches % 256
  second : clock.second.toNat = dispatches % 10
  minute : clock.minute.toNat = dispatches / 10 % 60
  hour : clock.hour.toNat = dispatches / 600 % 60

variable {clock : Clock} {ticks dispatches : Nat}

section Shown

variable (shows : clock.Shows ticks dispatches)

include shows

theorem Shows.tick : clock.tick.Shows (ticks + 1) dispatches := by
  refine ⟨?_, shows.seen, shows.second, shows.minute, shows.hour⟩
  have before := shows.timebase
  simp only [Clock.tick, UInt8.toNat_add, UInt8.reduceToNat]
  omega

variable (served : dispatches ≤ ticks) (bounded : ticks ≤ dispatches + 255)

include served bounded

/-- A tick is waiting exactly when more have come than were dispatched. -/
theorem Shows.isBehind_iff : clock.isBehind = true ↔ dispatches < ticks := by
  -- Equal bytes mean equal numbers, since these are less than 256 apart.
  obtain ⟨timebase, seen, -, -, -⟩ := shows
  rw [isBehind, bne_iff_ne, ne_eq, ← UInt8.toNat_inj, timebase, seen]
  omega

end Shown

/-- Counting to a limit that fits into a byte. -/
theorem countTo_eq {limit count : Nat} (positive : 0 < limit) (small : limit < 256)
    (counted : counter.toNat = count % limit) :
    ((countTo limit counter).1 = true ↔ limit ∣ count + 1) ∧
      (countTo limit counter).2.toNat = (count + 1) % limit := by
  -- The counter stays below its limit, so the byte itself never wraps.
  have next : (counter + 1).toNat = count % limit + 1 := by
    have below := Nat.mod_lt count positive
    simp only [UInt8.toNat_add, UInt8.reduceToNat, counted]
    omega
  have wraps : (count + 1) % limit = (count % limit + 1) % limit :=
    (Nat.mod_add_mod count limit 1).symm
  have full : counter + 1 = UInt8.ofNat limit ↔ count % limit + 1 = limit := by
    rw [← UInt8.toNat_inj, next, UInt8.toNat_ofNat_of_lt' small]
  rw [Nat.dvd_iff_mod_eq_zero, wraps]
  unfold countTo
  dsimp only
  by_cases last : count % limit + 1 = limit
  · rw [if_pos (full.mpr last), last, Nat.mod_self]
    exact ⟨by simp, rfl⟩
  · have below := Nat.mod_lt count positive
    rw [if_neg fun same => last (full.mp same), Nat.mod_eq_of_lt (by omega)]
    exact ⟨by simp, next⟩

/-- Counting a longer interval where the shorter one is complete. -/
theorem countTo_full (short limit : Nat) (positive : 0 < limit) (small : limit < 256)
    (counted : counter.toNat = dispatches / short % limit) (full : short ∣ dispatches + 1) :
    ((countTo limit counter).1 = true ↔ short * limit ∣ dispatches + 1) ∧
      (countTo limit counter).2.toNat = (dispatches + 1) / short % limit := by
  obtain ⟨complete, next⟩ := countTo_eq positive small counted
  have rounds := Nat.succ_div_of_dvd full
  refine ⟨?_, by rw [next, rounds]⟩
  -- The shorter intervals that have passed are counted instead of the ticks.
  rw [complete, ← rounds]
  obtain ⟨count, same⟩ := full
  have some : 0 < short := Nat.pos_of_ne_zero fun none => by simp [none] at same
  rw [same, Nat.mul_div_cancel_left count some, Nat.mul_dvd_mul_iff_left some]

/-- One more dispatch completes the intervals whose ticks it makes full. -/
theorem Shows.advance (shows : clock.Shows ticks dispatches) :
    (clock.see.advance Interval.all).1 =
        Interval.all.filter (fun interval => interval.ticks ∣ dispatches + 1) ∧
      (clock.see.advance Interval.all).2.Shows ticks (dispatches + 1) := by
  obtain ⟨timebase, seen, second, minute, hour⟩ := shows
  have moved : (clock.seen + 1).toNat = (dispatches + 1) % 256 := by
    simp only [UInt8.toNat_add, UInt8.reduceToNat]
    omega
  -- Each interval divides the next one, so tests that the clock never makes would fail.
  have minutes : 600 ∣ dispatches + 1 → 10 ∣ dispatches + 1 := Nat.dvd_trans (by decide)
  have hours : 36000 ∣ dispatches + 1 → 600 ∣ dispatches + 1 := Nat.dvd_trans (by decide)
  have seconds := countTo_eq (by decide) (by decide) second
  have countMinute := countTo_full 10 60 (by decide) (by decide) minute
  have countHour := countTo_full 600 60 (by decide) (by decide) hour
  simp only [Interval.all, Clock.advance, count, see, Interval.ratio, ↓reduceIte]
  by_cases tens : 10 ∣ dispatches + 1
  · have nextMinute := countMinute tens
    simp only [seconds.1.mpr tens, ↓reduceIte]
    by_cases hundreds : 600 ∣ dispatches + 1
    · have nextHour := countHour hundreds
      simp only [nextMinute.1.mpr hundreds, ↓reduceIte]
      by_cases thousands : 36000 ∣ dispatches + 1
      · simp only [nextHour.1.mpr thousands, ↓reduceIte]
        exact ⟨by simp [Interval.ticks, tens, hundreds, thousands],
          timebase, moved, seconds.2, nextMinute.2, nextHour.2⟩
      · simp only [mt nextHour.1.mp thousands]
        exact ⟨by simp [Interval.ticks, tens, hundreds, thousands],
          timebase, moved, seconds.2, nextMinute.2, nextHour.2⟩
    · simp only [mt nextMinute.1.mp hundreds]
      rw [← Nat.succ_div_of_not_dvd hundreds] at hour
      exact ⟨by simp [Interval.ticks, tens, hundreds, mt hours hundreds],
        timebase, moved, seconds.2, nextMinute.2, hour⟩
  · have hundreds := mt minutes tens
    simp only [mt seconds.1.mp tens]
    rw [← Nat.succ_div_of_not_dvd tens] at minute
    rw [← Nat.succ_div_of_not_dvd hundreds] at hour
    exact ⟨by simp [Interval.ticks, tens, hundreds, mt hours hundreds],
      timebase, moved, seconds.2, minute, hour⟩

end Clock

/-! ## Histories -/

namespace Note

/-- All hooks that a command has started, in order. -/
def hooks : Note → List HookId
  | .ticked => []
  | .booted started => started
  | .passed polled dispatched => polled ++ dispatched.getD []

/-- The note tells of a periodic dispatch. -/
def dispatches : Note → Bool
  | .passed _ (some _) => true
  | _ => false

end Note

/-- The ticks that have come. -/
def tickCount (notes : List Note) : Nat :=
  notes.count .ticked

/-- The dispatches that were done. -/
def dispatchCount (notes : List Note) : Nat :=
  notes.countP Note.dispatches

/-- The hooks that a dispatch has to run, by the number of dispatches with it. -/
def Model.dueHooks (model : Model) (count : Nat) : List HookId :=
  model.hooksEvery (Interval.all.filter fun interval => interval.ticks ∣ count)

/-- What was done keeps time. -/
structure KeepsTime (model : Model) (notes : List Note) : Prop where
  /-- No tick is seen that did not come. -/
  served : dispatchCount notes ≤ tickCount notes
  /-- A pass dispatches exactly when a tick is waiting. -/
  punctual : ∀ before polled dispatched after,
    notes = before ++ .passed polled dispatched :: after →
      (dispatched.isSome ↔ dispatchCount before < tickCount before)
  /-- A dispatch runs the hooks of all intervals that are complete, the shortest first. -/
  ordered : ∀ before polled due after, notes = before ++ .passed polled (some due) :: after →
    due = model.dueHooks (dispatchCount before + 1)
  /-- A hook has run once for each time that its interval was complete. -/
  counted : ∀ id hook interval, model.hooks[id]? = some hook → hook.kind = .every interval →
    (notes.flatMap Note.hooks).count id = dispatchCount notes / interval.ticks

/-! ## Hooks and their occasions -/

namespace Model

variable {model : Model} {id : HookId} {hook : Hook}

theorem hooksOn_sorted (model : Model) (kind : HookKind) :
    (model.hooksOn kind).Pairwise (· < ·) := by
  -- They are some of all hooks, which are numbered in this order.
  have all : (model.hooks.zipIdx.map Prod.snd).Pairwise (· < ·) := by
    rw [List.zipIdx_map_snd]
    exact List.pairwise_lt_range'
  exact all.sublist (List.filter_sublist.map Prod.snd)

variable (found : model.hooks[id]? = some hook)

include found

/-- A hook is listed once on its own occasion, and on no other. -/
theorem count_hooksOn (kind : HookKind) :
    (model.hooksOn kind).count id = if hook.kind = kind then 1 else 0 := by
  have once : (model.hooksOn kind).Nodup :=
    (model.hooksOn_sorted kind).imp fun less => Nat.ne_of_lt less
  have listed : id ∈ model.hooksOn kind ↔ hook.kind = kind := by
    simp only [hooksOn, List.mem_map, List.mem_filter, List.mem_zipIdx_iff_getElem?]
    constructor
    · rintro ⟨⟨other, place⟩, ⟨there, same⟩, rfl⟩
      cases found.symm.trans there
      simpa using same
    · intro same
      exact ⟨(hook, id), ⟨found, by simpa using same⟩, rfl⟩
  simp only [once.count, listed]

/-- A periodic hook runs as often as its interval is listed. -/
theorem count_hooksEvery (periodic : hook.kind = .every interval) (intervals : List Interval) :
    (model.hooksEvery intervals).count id = intervals.count interval := by
  induction intervals with
  | nil => rfl
  | cons first rest ih =>
    rw [hooksEvery_cons, List.count_append, ih, count_hooksOn found, periodic, List.count_cons,
      Nat.add_comm]
    simp only [HookKind.every.injEq, beq_iff_eq, @eq_comm _ interval]

/-- A dispatch runs a hook once if its interval is complete, and else not at all. -/
theorem count_dueHooks (periodic : hook.kind = .every interval) (count : Nat) :
    (model.dueHooks count).count id = if interval.ticks ∣ count then 1 else 0 := by
  rw [dueHooks, count_hooksEvery found periodic]
  split
  · rename_i full
    rw [List.count_filter (by simpa using full)]
    cases interval <;> rfl
  · rename_i short
    refine List.count_eq_zero.mpr fun member => short ?_
    simpa using (List.mem_filter.mp member).2

end Model

/-! ## Keeping time -/

/-- What a command may have told behind others. -/
def Note.Follows (model : Model) (before : List Note) : Note → Prop
  | .ticked => True
  | .booted started => started = model.hooksOn .init
  | .passed polled dispatched => polled = model.hooksOn .runnable ∧
    dispatched = if dispatchCount before < tickCount before then
      some (model.dueHooks (dispatchCount before + 1)) else none

theorem tickCount_concat (notes : List Note) (note : Note) :
    tickCount (notes ++ [note]) = tickCount notes + if note = .ticked then 1 else 0 := by
  simp [tickCount, List.count_append, List.count_singleton]

theorem dispatchCount_concat (notes : List Note) (note : Note) :
    dispatchCount (notes ++ [note]) = dispatchCount notes + if note.dispatches then 1 else 0 := by
  simp [dispatchCount, List.countP_append, List.countP_singleton]

namespace Note.Follows

variable {model : Model} {before : List Note} {note : Note}

/-- A dispatch has a tick to use up. -/
theorem waiting (follows : note.Follows model before) (dispatches : note.dispatches = true) :
    dispatchCount before < tickCount before ∧ note ≠ .ticked := by
  cases note with
  | ticked | booted started => cases dispatches
  | passed polled dispatched =>
    obtain ⟨-, rfl⟩ := follows
    refine ⟨?_, by simp⟩
    by_contra none
    rw [if_neg none] at dispatches
    cases dispatches

/-- Only a dispatch runs a periodic hook, and once if its interval is complete. -/
theorem count_hooks (follows : note.Follows model before) {id : HookId} {hook : Hook}
    (found : model.hooks[id]? = some hook) (periodic : hook.kind = .every interval) :
    note.hooks.count id = if note.dispatches then
      (if interval.ticks ∣ dispatchCount before + 1 then 1 else 0) else 0 := by
  cases note with
  | ticked => rfl
  | booted started =>
    obtain rfl : started = model.hooksOn .init := follows
    rw [hooks, Model.count_hooksOn found, periodic]
    rfl
  | passed polled dispatched =>
    obtain ⟨rfl, rfl⟩ := follows
    rw [hooks, List.count_append, Model.count_hooksOn found, periodic, if_neg (by simp),
      Nat.zero_add]
    by_cases waiting : dispatchCount before < tickCount before
    · rw [if_pos waiting, Option.getD_some, Model.count_dueHooks found periodic]
      rfl
    · rw [if_neg waiting]
      rfl

end Note.Follows

theorem concat_eq_append_cons {before after : List Note} {other : Note}
    (same : notes ++ [note] = before ++ other :: after) :
    (before = notes ∧ other = note) ∨ ∃ rest, notes = before ++ other :: rest := by
  -- The other note is the last one exactly when nothing follows it.
  rcases List.eq_nil_or_concat after with rfl | ⟨rest, last, rfl⟩
  · obtain ⟨rfl, last⟩ := List.append_inj' same rfl
    cases last
    exact .inl ⟨rfl, rfl⟩
  · rw [List.concat_eq_append, ← List.cons_append, ← List.append_assoc] at same
    exact .inr ⟨rest, (List.append_inj' same rfl).1⟩

/-- A command that tells what it has to keeps time. -/
theorem KeepsTime.concat {model : Model} (kept : KeepsTime model notes)
    (follows : note.Follows model notes) :
    KeepsTime model (notes ++ [note]) where
  served := by
    have served := kept.served
    rw [dispatchCount_concat, tickCount_concat]
    split
    · rename_i dispatches
      have waiting := (follows.waiting dispatches).1
      omega
    · omega
  punctual before polled dispatched after same := by
    rcases concat_eq_append_cons same with ⟨rfl, rfl⟩ | ⟨rest, earlier⟩
    · obtain ⟨-, rfl⟩ := follows
      split <;> simp_all
    · exact kept.punctual before polled dispatched rest earlier
  ordered before polled due after same := by
    rcases concat_eq_append_cons same with ⟨rfl, rfl⟩ | ⟨rest, earlier⟩
    · have told := follows.2
      split at told
      · exact Option.some.inj told
      · cases told
    · exact kept.ordered before polled due rest earlier
  counted id hook interval found periodic := by
    -- A quotient grows by one exactly where the divisor divides the next number.
    rw [List.flatMap_append, List.count_append, kept.counted id hook interval found periodic,
      List.flatMap_singleton, follows.count_hooks found periodic, dispatchCount_concat]
    split
    · rw [Nat.succ_div]
    · rfl

namespace Machine

variable {σ : Type} [Host σ] {program : Program} {machine : Machine σ} {before : List Note}

/-- What was told keeps time, and the clock of the machine shows it. -/
structure OnTime (program : Program) (told : List Note) (machine : Machine σ) : Prop where
  kept : KeepsTime program.model told
  shown : machine.clock.Shows (tickCount told) (dispatchCount told)

/-- A command keeps time, unless it finds more ticks waiting than a byte can tell. -/
theorem OnTime.obey (onTime : OnTime program before machine)
    (bounded : tickCount before ≤ dispatchCount before + 255) {fuel : Nat} {command : Command}
    {after : Machine σ} (told : Exec.obeyNoting program fuel command machine = .ok note after) :
    OnTime program (before ++ [note]) after := by
  obtain ⟨kept, shown⟩ := onTime
  cases command with
  | boot =>
    obtain ⟨rfl, same⟩ := Exec.bootNoting_reports _ machine rfl note after told
    refine ⟨kept.concat rfl, ?_⟩
    rw [tickCount_concat, dispatchCount_concat, same]
    exact shown
  | tick =>
    obtain ⟨rfl, same⟩ := Exec.tickNoting_reports _ machine rfl note after told
    refine ⟨kept.concat trivial, ?_⟩
    rw [tickCount_concat, dispatchCount_concat, same]
    exact shown.tick
  | pass =>
    obtain ⟨rfl, same⟩ := Exec.passNoting_reports _ machine rfl note after told
    -- The clock tells whether a tick is waiting.
    have behind := shown.isBehind_iff kept.served bounded
    by_cases waiting : dispatchCount before < tickCount before
    · rw [if_pos (behind.mpr waiting), shown.advance.1] at told ⊢
      rw [if_pos (behind.mpr waiting)] at same
      refine ⟨kept.concat ⟨rfl, (if_pos waiting).symm⟩, ?_⟩
      rw [tickCount_concat, dispatchCount_concat, same]
      exact shown.advance.2
    · have still := mt behind.mp waiting
      rw [if_neg still] at same ⊢
      refine ⟨kept.concat ⟨rfl, (if_neg waiting).symm⟩, ?_⟩
      rw [tickCount_concat, dispatchCount_concat, same]
      exact shown

/-- Commands keep time one behind the other. -/
theorem OnTime.after (operations : List (Nat × Command)) (onTime : OnTime program before machine)
    (free : machine.halts program operations = [])
    (bounded : ∀ told later, before ++ machine.notes program operations = told ++ later →
      tickCount told ≤ dispatchCount told + 255) :
    OnTime program (before ++ machine.notes program operations)
      (machine.after program operations) := by
  -- By induction on the commands, with what was told before as the history so far.
  induction operations generalizing machine before with
  | nil => simpa [notes, Machine.after] using onTime
  | cons operation rest ih =>
    obtain ⟨fuel, command⟩ := operation
    simp only [halts, List.append_eq_nil_iff, Option.toList_eq_nil_iff] at free
    obtain ⟨note, told⟩ := exists_note free.1
    have notes : machine.notes program ((fuel, command) :: rest) =
        note :: (machine.obey program fuel command).2.notes program rest := by
      rw [Machine.notes, told]
    rw [notes] at bounded ⊢
    have next := onTime.obey (bounded before _ rfl) told
    rw [← List.singleton_append, ← List.append_assoc] at bounded ⊢
    exact ih next free.2 bounded

end Machine

end Coro
