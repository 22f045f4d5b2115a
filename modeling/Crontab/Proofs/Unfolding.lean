import Crontab.Proofs.Enumeration
import Crontab.Proofs.Soundness

/-! # Runs as one sequence

The runs past an instant are a sequence that does not depend on who reads it: the first is what a
search from that instant comes to, and each that follows is what a search from the one before comes
to (`Schedule.reached`).  Every run lies past all before it (`Schedule.past_of_reached`), and once a
search has no answer there are no more runs (`Schedule.reached_eq_none`).

Whoever reads runs stands at a place in that sequence (`Runs.after`).  Whatever is asked of the
runs, the answer is read off the sequence from that place on, and the place moves by as many runs as
were asked for (`Runs.answers_after`).  A clone stands where its original does and moves on its own.
Hence **every way to read runs and their clones is a way to read one sequence**
(`Runs.dialogue_unfolds`).
-/

namespace Crontab

/-! ### What is asked of runs -/

/-- What may be asked of runs. -/
inductive Request where
  /-- The next run. -/
  | next
  /-- The next runs, up to a number. -/
  | take (count : Nat)
  /-- The run that comes after as many others. -/
  | nth (skipped : Nat)
  deriving DecidableEq

/-- What runs answer. -/
inductive Answer where
  /-- A run, if there is one. -/
  | run (t : Option Instant)
  /-- Some runs. -/
  | runs (ts : List Instant)
  deriving DecidableEq

namespace Request

/-- How many runs are asked for. -/
def count : Request → Nat
  | next => 1
  | take count => count
  | nth skipped => skipped + 1

/-- **The answer that a sequence gives** to whoever stands at a place in it: where the sequence
comes to next, where it comes to next up to a number of times, or where it comes to further on. -/
def answerIn (sequence : Nat → Option Instant) (place : Nat) : Request → Answer
  | next => .run (sequence (place + 1))
  | take count => .runs ((List.range' (place + 1) count).filterMap sequence)
  | nth skipped => .run (sequence (place + skipped + 1))

/-- Whoever stands at a place in a sequence answers as the sequence gives, and moves on by as many
runs as are asked for. -/
def ReadOff (sequence : Nat → Option Instant) (place : Nat) (request : Request) (answer : Answer)
    (moved : Nat) : Prop :=
  answer = request.answerIn sequence place ∧ moved = place + request.count

end Request

/-- What happens to some readers of runs, who are told apart by their numbers. -/
inductive Event where
  /-- The reader with a number makes a request, and has it answered. -/
  | asked (number : Nat) (request : Request) (answer : Answer)
  /-- The reader with a number is cloned.  The clone has the number after the last. -/
  | cloned (number : Nat)
  deriving DecidableEq

/-- **What may happen to some readers, one thing after the other**, where `answers` says what a
reader may be answered and what becomes of it. -/
inductive Dialogue {α : Type} (answers : α → Request → Answer → α → Prop) :
    (readers : List α) → (events : List Event) → (readers' : List α) → Prop
  /-- Nothing happens. -/
  | nil {readers : List α} : Dialogue answers readers [] readers
  /-- A reader has a request answered, and no other changes. -/
  | asked {readers readers' : List α} {number : Nat} {reader moved : α} {request : Request}
      {answer : Answer} {events : List Event} : readers[number]? = some reader →
      answers reader request answer moved →
      Dialogue answers (readers.set number moved) events readers' →
      Dialogue answers readers (.asked number request answer :: events) readers'
  /-- A reader is cloned, and stays as it is. -/
  | cloned {readers readers' : List α} {number : Nat} {reader : α} {events : List Event} :
      readers[number]? = some reader → Dialogue answers (readers ++ [reader]) events readers' →
      Dialogue answers readers (.cloned number :: events) readers'

/-- **Readers that are answered as others are may be taken for them**, whatever happens. -/
theorem Dialogue.lift {α β : Type} {answers : α → Request → Answer → α → Prop}
    {answers' : β → Request → Answer → β → Prop} {f : β → α}
    (hf : ∀ b request answer a, answers (f b) request answer a →
      ∃ b', answers' b request answer b' ∧ a = f b')
    {readers readers' : List α} {events : List Event} (h : Dialogue answers readers events readers')
    (others : List β) (hothers : readers = others.map f) :
    ∃ others', Dialogue answers' others events others' ∧ readers' = others'.map f := by
  induction h generalizing others with
  | nil => exact ⟨others, .nil, hothers⟩
  | asked hreader hanswer _ ih =>
    subst hothers
    rw [List.getElem?_map, Option.map_eq_some_iff] at hreader
    obtain ⟨other, hother, rfl⟩ := hreader
    obtain ⟨moved, hmoved, rfl⟩ := hf _ _ _ _ hanswer
    obtain ⟨others', hdialogue, hreaders⟩ := ih (others.set _ moved) List.map_set.symm
    exact ⟨others', .asked hother hmoved hdialogue, hreaders⟩
  | cloned hreader _ ih =>
    subst hothers
    rw [List.getElem?_map, Option.map_eq_some_iff] at hreader
    obtain ⟨other, hother, rfl⟩ := hreader
    obtain ⟨others', hdialogue, hreaders⟩ := ih (others ++ [other]) (by simp)
    exact ⟨others', .cloned hother hdialogue, hreaders⟩

/-! ### The sequence -/

namespace Schedule

variable (s : Schedule) (z : Zone) (d : Direction) (origin : Instant)

/-- **Where searching has come to after a number of searches**, each from where the one before has
come to, unless one of them had no answer. -/
def reached : Nat → Option Instant
  | 0 => some origin
  | n + 1 => (reached n).bind fun t => (s.occurrence z d t).toOption

/-- The last instant that a number of searches have come to. -/
def standing : Nat → Instant
  | 0 => origin
  | n + 1 => (s.reached z d origin (n + 1)).getD (standing n)

variable {s z d origin} {a b t : Instant} {m n : Nat}

theorem reached_succ_eq_some : s.reached z d origin (n + 1) = some t ↔
    ∃ u, s.reached z d origin n = some u ∧ s.occurrence z d u = .ok t := by
  rw [reached, Option.bind_eq_some_iff]
  refine exists_congr fun u => and_congr_right fun _ => ?_
  cases s.occurrence z d u <;> simp [Except.toOption]

/-- **Once a search has no answer there are no more runs.** -/
theorem reached_eq_none (h : s.reached z d origin m = none) (hmn : m ≤ n) :
    s.reached z d origin n = none := by
  induction hmn with
  | refl => exact h
  | step _ ih => rw [reached, ih, Option.bind_none]

/-- **Every run lies past all before it**, and past the instant from which they are counted. -/
theorem past_of_reached (hv : s.Valid) (hmn : m < n) (ha : s.reached z d origin m = some a)
    (hb : s.reached z d origin n = some b) : d.Past a b := by
  induction hmn generalizing b with
  | refl =>
    obtain ⟨t, ht, hfound⟩ := reached_succ_eq_some.mp hb
    obtain rfl : a = t := Option.some.inj (ha.symm.trans ht)
    obtain ⟨_, -, hres⟩ := exists_resolves_of_occurrence hv hfound
    exact hres.past
  | step _ ih =>
    obtain ⟨t, ht, hfound⟩ := reached_succ_eq_some.mp hb
    obtain ⟨_, -, hres⟩ := exists_resolves_of_occurrence hv hfound
    exact Direction.past_trans (ih ht) hres.past

theorem standing_of_reached (h : s.reached z d origin n = some t) :
    s.standing z d origin n = t := by
  cases n with
  | zero => exact Option.some.inj h
  | succ n => rw [standing, h, Option.getD_some]

theorem standing_of_none (h : s.reached z d origin m = none) (hmn : m ≤ n) :
    s.standing z d origin n = s.standing z d origin m := by
  induction hmn with
  | refl => rfl
  | step hmn ih =>
    rw [standing, reached_eq_none h (Nat.le_succ_of_le hmn), Option.getD_none, ih]

end Schedule

namespace Runs

variable {s : Schedule} {z : Zone} {d : Direction} {origin : Instant} {r r' : Runs} {m n : Nat}
  {ts : List Instant} {t : Option Instant}

/-! ### Reading the sequence -/

/-- **Runs past an instant once a number of them have been asked for.** -/
def after (s : Schedule) (z : Zone) (d : Direction) (origin : Instant) (n : Nat) : Runs where
  schedule := s
  zone := z
  direction := d
  current := s.standing z d origin n
  ended := (s.reached z d origin n).isNone

/-- Asking for more runs than there are changes nothing. -/
theorem after_of_none (h : s.reached z d origin m = none) (hmn : m ≤ n) :
    after s z d origin n = after s z d origin m := by
  rw [after, after, Schedule.standing_of_none h hmn, Schedule.reached_eq_none h hmn, h]

/-- Runs that have ended have no more, and stay as they are.  No search is made for any. -/
theorem answer_of_ended (h : r.ended = true) : r.next = (.ok none, r) ∧
    (∀ count, r.take count = (.ok [], r)) ∧ ∀ skipped, r.nth skipped = (.ok none, r) := by
  have hnext : r.next = (.ok none, r) := if_pos h
  refine ⟨hnext, fun count => ?_, fun skipped => ?_⟩
  · cases count with
    | zero => rfl
    | succ count => rw [take, hnext]
  · cases skipped with
    | zero => exact hnext
    | succ skipped => rw [nth, hnext]

/-- **The next run is the next of the sequence.** -/
theorem next_after (h : (after s z d origin n).next = (.ok t, r)) :
    t = s.reached z d origin (n + 1) ∧ r = after s z d origin (n + 1) := by
  cases hn : s.reached z d origin n with
  | none =>
    have hended : (after s z d origin n).ended = true := by rw [after, hn]; rfl
    rw [(answer_of_ended hended).1] at h
    cases h
    exact ⟨(Schedule.reached_eq_none hn (Nat.le_succ n)).symm,
      (after_of_none hn (Nat.le_succ n)).symm⟩
  | some u =>
    have hafter : after s z d origin n = past s z d u := by
      rw [after, Schedule.standing_of_reached hn, hn]
      rfl
    rw [hafter] at h
    cases hfound : s.occurrence z d u with
    | ok v =>
      have hv : s.reached z d origin (n + 1) = some v :=
        Schedule.reached_succ_eq_some.mpr ⟨u, hn, hfound⟩
      rw [next_past_of_ok hfound] at h
      cases h
      refine ⟨hv.symm, ?_⟩
      rw [after, Schedule.standing_of_reached hv, hv]
      rfl
    | error e =>
      have hnone : s.reached z d origin (n + 1) = none := by
        rw [Schedule.reached, hn, Option.bind_some, hfound]
        rfl
      by_cases he : e = .noReading
      · rw [next_past_of_noReading (he ▸ hfound)] at h
        cases h
      · rw [next_past_of_error hfound he] at h
        cases h
        refine ⟨hnone.symm, ?_⟩
        rw [after, Schedule.standing, hnone, Schedule.standing_of_reached hn]
        rfl

/-- Some runs are none if there is no next one, and else the next one and some of those after it. -/
theorem take_succ_eq_ok {count : Nat} : r.take (count + 1) = (.ok ts, r') ↔
    r.next = (.ok none, r') ∧ ts = [] ∨ ∃ u moved rest, r.next = (.ok (some u), moved) ∧
      moved.take count = (.ok rest, r') ∧ ts = u :: rest := by
  rw [take]
  rcases r.next with ⟨_ | _ | u, moved⟩
  · simp
  · simp [and_comm, eq_comm]
  · constructor
    · intro h
      cases htake : moved.take count with
      | mk found last =>
        simp only [htake] at h
        cases found with
        | error e => cases h
        | ok rest =>
          cases h
          exact Or.inr ⟨u, moved, rest, rfl, htake, rfl⟩
    · rintro (⟨⟨⟩, -⟩ | ⟨u, moved, rest, ⟨⟩, hrest, rfl⟩)
      simp only [hrest]

/-- A run further on is none if there is no next one, and else one of those after it. -/
theorem nth_succ_eq_ok {skipped : Nat} : r.nth (skipped + 1) = (.ok t, r') ↔
    r.next = (.ok none, r') ∧ t = none ∨ ∃ u moved, r.next = (.ok (some u), moved) ∧
      moved.nth skipped = (.ok t, r') := by
  rw [nth]
  rcases r.next with ⟨_ | _ | u, moved⟩
  · simp
  · simp [and_comm, eq_comm]
  · simp

/-- **The next runs are the next ones of the sequence**, as far as there are any. -/
theorem take_after {count : Nat} (h : (after s z d origin n).take count = (.ok ts, r)) :
    ts = (List.range' (n + 1) count).filterMap (s.reached z d origin) ∧
      r = after s z d origin (n + count) := by
  induction count generalizing n ts with
  | zero =>
    cases h
    exact ⟨rfl, rfl⟩
  | succ count ih =>
    rcases take_succ_eq_ok.mp h with ⟨hnext, rfl⟩ | ⟨u, moved, rest, hnext, hrest, rfl⟩
    · obtain ⟨hnone, rfl⟩ := next_after hnext
      constructor
      · refine (List.filterMap_eq_nil_iff.mpr fun k hk => ?_).symm
        exact Schedule.reached_eq_none hnone.symm (List.left_le_of_mem_range' hk)
      · exact (after_of_none hnone.symm (by omega)).symm
    · obtain ⟨hsome, rfl⟩ := next_after hnext
      obtain ⟨rfl, hmoved⟩ := ih hrest
      have hshift : n + 1 + count = n + (count + 1) := by omega
      rw [List.range'_succ, List.filterMap_cons_some hsome.symm, ← hshift]
      exact ⟨rfl, hmoved⟩

/-- **A run further on is one further on in the sequence.** -/
theorem nth_after {skipped : Nat} (h : (after s z d origin n).nth skipped = (.ok t, r)) :
    t = s.reached z d origin (n + skipped + 1) ∧ r = after s z d origin (n + skipped + 1) := by
  induction skipped generalizing n with
  | zero => exact next_after h
  | succ skipped ih =>
    rcases nth_succ_eq_ok.mp h with ⟨hnext, rfl⟩ | ⟨u, moved, hnext, hrest⟩
    · obtain ⟨hnone, rfl⟩ := next_after hnext
      exact ⟨(Schedule.reached_eq_none hnone.symm (by omega)).symm,
        (after_of_none hnone.symm (by omega)).symm⟩
    · obtain ⟨-, rfl⟩ := next_after hnext
      have hshift : n + 1 + skipped = n + (skipped + 1) := by omega
      rw [← hshift]
      exact ih hrest

/-- Runs end with the answer that there is none. -/
theorem ended_of_next (h : r.next = (.ok none, r')) : r'.ended = true := by
  unfold next at h
  split at h
  · rename_i hended
    cases h
    exact hended
  · split at h
    · cases h
    · cases h
    · cases h
      rfl

/-- **Taking some runs and then some more is taking them all.** -/
theorem take_add {count : Nat} : r.take (m + count) = (.ok ts, r') ↔
    ∃ us moved vs, r.take m = (.ok us, moved) ∧ moved.take count = (.ok vs, r') ∧
      ts = us ++ vs := by
  induction m generalizing r ts with
  | zero => simp [take]
  | succ m ih =>
    rw [Nat.succ_add, take_succ_eq_ok]
    constructor
    · rintro (⟨hnext, rfl⟩ | ⟨u, moved, rest, hnext, hrest, rfl⟩)
      · exact ⟨[], r', [], take_succ_eq_ok.mpr (Or.inl ⟨hnext, rfl⟩),
          (answer_of_ended (ended_of_next hnext)).2.1 count, rfl⟩
      · obtain ⟨us, mid, vs, hus, hvs, rfl⟩ := ih.mp hrest
        exact ⟨u :: us, mid, vs,
          take_succ_eq_ok.mpr (Or.inr ⟨u, moved, us, hnext, hus, rfl⟩), hvs, rfl⟩
    · rintro ⟨us, mid, vs, hus, hvs, rfl⟩
      rcases take_succ_eq_ok.mp hus with ⟨hnext, rfl⟩ | ⟨u, moved, rest, hnext, hrest, rfl⟩
      · rw [(answer_of_ended (ended_of_next hnext)).2.1 count] at hvs
        cases hvs
        exact Or.inl ⟨hnext, rfl⟩
      · exact Or.inr ⟨u, moved, rest ++ vs, hnext, ih.mpr ⟨rest, mid, vs, hrest, hvs, rfl⟩, rfl⟩

/-! ### Dialogues -/

/-- The runs answer a request, and `moved` are the runs after that. -/
inductive Answers : (runs : Runs) → Request → Answer → (moved : Runs) → Prop
  | next {runs moved : Runs} {t : Option Instant} :
      runs.next = (.ok t, moved) → Answers runs .next (.run t) moved
  | take {runs moved : Runs} {count : Nat} {ts : List Instant} :
      runs.take count = (.ok ts, moved) → Answers runs (.take count) (.runs ts) moved
  | nth {runs moved : Runs} {skipped : Nat} {t : Option Instant} :
      runs.nth skipped = (.ok t, moved) → Answers runs (.nth skipped) (.run t) moved

/-- **Whatever is asked of runs, the answer is read off the sequence** from where they stand, and
they move on by as many runs as were asked for. -/
theorem answers_after {request : Request} {answer : Answer}
    (h : (after s z d origin n).Answers request answer r) :
    answer = request.answerIn (s.reached z d origin) n ∧
      r = after s z d origin (n + request.count) := by
  cases h with
  | next h =>
    obtain ⟨rfl, rfl⟩ := next_after h
    exact ⟨rfl, rfl⟩
  | take h =>
    obtain ⟨rfl, rfl⟩ := take_after h
    exact ⟨rfl, rfl⟩
  | nth h =>
    obtain ⟨rfl, rfl⟩ := nth_after h
    exact ⟨rfl, rfl⟩

/-- **Reading runs is reading one sequence.**  The sequence starts at the origin and goes on by
searching from where it has come to.  It goes one way only, and ends where a search has no answer.
Runs past the origin and their clones may be read in any order and in any way, as long as no search
is reported.  Then each of them has a place in the sequence, which a clone takes over from its
original and from then on moves by itself.  Every answer is the one that the sequence gives at the
place of the runs that are asked, and what is left are the runs at the places that have been
reached.  Runs that have ended answer without a search and stay as they are.  Taking some runs and
then some more is taking them all. -/
theorem dialogue_unfolds {expression : String} (hs : Schedule.parse expression = .ok s) (z : Zone)
    (d : Direction) (origin : Instant) :
    (s.reached z d origin 0 = some origin ∧ ∀ n, s.reached z d origin (n + 1) =
      (s.reached z d origin n).bind fun t => (s.occurrence z d t).toOption) ∧
    (∀ m n a b, m < n → s.reached z d origin m = some a → s.reached z d origin n = some b →
      d.Past a b) ∧
    (∀ m n, m ≤ n → s.reached z d origin m = none → s.reached z d origin n = none) ∧
    (∀ events readers, Dialogue Answers [past s z d origin] events readers →
      ∃ places, Dialogue (Request.ReadOff (s.reached z d origin)) [0] events places ∧
        readers = places.map (after s z d origin)) ∧
    (∀ n, (after s z d origin n).ended = true ↔ s.reached z d origin n = none) ∧
    (∀ r : Runs, r.ended = true → r.next = (.ok none, r) ∧
      (∀ count, r.take count = (.ok [], r)) ∧ ∀ skipped, r.nth skipped = (.ok none, r)) ∧
    ∀ (r r' : Runs) (m n : Nat) (ts : List Instant), r.take (m + n) = (.ok ts, r') ↔
      ∃ us moved vs, r.take m = (.ok us, moved) ∧ moved.take n = (.ok vs, r') ∧ ts = us ++ vs := by
  have hv := Schedule.valid_of_parse hs
  refine ⟨⟨rfl, fun n => rfl⟩, fun m n a b => Schedule.past_of_reached hv,
    fun m n hmn h => Schedule.reached_eq_none h hmn, fun events readers h => ?_,
    fun n => Option.isNone_iff_eq_none, fun r => answer_of_ended, fun r r' m n ts => take_add⟩
  refine h.lift (f := after s z d origin) (fun place request answer moved hanswer => ?_) [0] rfl
  obtain ⟨hgiven, hmoved⟩ := answers_after hanswer
  exact ⟨_, ⟨hgiven, rfl⟩, hmoved⟩

/-- On 1 November 2026 the clocks are put back from two to one, and half past one comes twice.  A
clone takes both, and the original still comes to the second as the one after the first. -/
theorem dialogue_unfolds_fold : ∃ s, Schedule.parse "30 1 * * *" = .ok s ∧
    ∃ (origin a b : Instant) (readers : List Runs),
      (origin.second = 1793509200 ∧ a.second = 1793511000 ∧ b.second = 1793514600) ∧
      Dialogue Answers [past s Zone.eastern .forward origin]
        [.cloned 0, .asked 1 (.take 2) (.runs [a, b]), .asked 0 (.nth 1) (.run (some b))] readers ∧
      ∃ places, Dialogue (Request.ReadOff (s.reached Zone.eastern .forward origin)) [0]
          [.cloned 0, .asked 1 (.take 2) (.runs [a, b]), .asked 0 (.nth 1) (.run (some b))] places ∧
        readers = places.map (after s Zone.eastern .forward origin) := by
  let origin : Instant := ⟨1793509200, 0, by decide, by decide, by decide⟩
  let a : Instant := ⟨1793511000, 0, by decide, by decide, by decide⟩
  let b : Instant := ⟨1793514600, 0, by decide, by decide, by decide⟩
  obtain ⟨s, hs, htake, hnth⟩ := Schedule.exists_of_parse "30 1 * * *"
    (fun s => ((past s Zone.eastern .forward origin).take 2).1 = .ok [a, b] ∧
      ((past s Zone.eastern .forward origin).nth 1).1 = .ok (some b)) (by decide +kernel)
  have hdialogue : Dialogue Answers [past s Zone.eastern .forward origin]
      [.cloned 0, .asked 1 (.take 2) (.runs [a, b]), .asked 0 (.nth 1) (.run (some b))] _ :=
    .cloned rfl (.asked rfl (.take (Prod.ext htake rfl))
      (.asked rfl (.nth (Prod.ext hnth rfl)) .nil))
  obtain ⟨-, -, -, hunfolds, -⟩ := dialogue_unfolds hs Zone.eastern .forward origin
  exact ⟨s, hs, origin, a, b, _, ⟨rfl, rfl, rfl⟩, hdialogue, hunfolds _ _ hdialogue⟩

end Runs

end Crontab
