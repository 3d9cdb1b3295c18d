import Mathlib.Algebra.Ring.Nat
import Mathlib.Data.List.Induction
import Mathlib.Order.Nat

/-! # A bounded queue between two rates

A producer requests entries of a queue and now and then submits what it requested. A consumer takes
turns, and in each it takes as many submitted entries as it is asked for, if there are that many. Whether
an entry is free when it is requested is decided by these calls alone: what was requested against what
the turns could take.
-/

namespace UringServer.Backlog

/-- The calls on a queue. -/
inductive Call where
  | request
  | submit
  | turn (count : ℕ)
deriving DecidableEq, Repr

/-- How many entries a turn is asked for. -/
def Call.count : Call → ℕ
  | .turn count => count
  | _ => 0

/-- How many entries were requested, submitted and consumed. -/
structure Tally where
  requested : ℕ
  submitted : ℕ
  consumed : ℕ
deriving DecidableEq, Repr

/-- A turn takes no more than what was submitted and is left. -/
def Tally.after (tally : Tally) : Call → Tally
  | .request => { tally with requested := tally.requested + 1 }
  | .submit => { tally with submitted := tally.requested }
  | .turn count =>
      { tally with consumed := tally.consumed + min count (tally.submitted - tally.consumed) }

/-- The tally after more calls. -/
def Tally.run (tally : Tally) (calls : List Call) : Tally := calls.foldl Tally.after tally

/-- The tally of calls on a queue that was empty. -/
def tally (calls : List Call) : Tally := Tally.run ⟨0, 0, 0⟩ calls

/-- How much the turns among the calls are asked for. -/
def turns (calls : List Call) : ℕ := (calls.map Call.count).sum

/-- Of `entries` entries one is free for the next request. -/
def Tally.Free (entries : ℕ) (tally : Tally) : Prop := tally.requested < tally.consumed + entries

/-- From a tally on, every request among the calls finds an entry free. -/
def Served (entries : ℕ) (tally : Tally) (calls : List Call) : Prop :=
  ∀ before rest, calls = before ++ .request :: rest → (tally.run before).Free entries

/-- At every request, and seen from every moment before: what was requested and not submitted by that
moment is less than the entries of the queue and what the turns since then are asked for. -/
def Paced (entries : ℕ) (calls : List Call) : Prop :=
  ∀ before since rest, calls = before ++ since ++ .request :: rest →
    (tally (before ++ since)).requested < (tally before).submitted + turns since + entries

variable {entries n : ℕ} {calls first second : List Call} {call : Call} {start : Tally}

theorem Tally.run_append : start.run (first ++ second) = (start.run first).run second :=
  List.foldl_append

theorem tally_concat : tally (calls ++ [call]) = (tally calls).after call := Tally.run_append

theorem turns_concat : turns (calls ++ [call]) = turns calls + call.count := by
  simp [turns]

/-- Nothing is submitted before it is requested, or consumed before it is submitted. -/
theorem tally_ordered (calls : List Call) :
    (tally calls).consumed ≤ (tally calls).submitted ∧
      (tally calls).submitted ≤ (tally calls).requested := by
  induction calls using List.reverseRecOn with
  | nil => exact ⟨le_rfl, le_rfl⟩
  | append_singleton calls call ih =>
    rw [tally_concat]
    cases call with
    | request => exact ⟨ih.1, ih.2.trans (Nat.le_succ _)⟩
    | submit => exact ⟨ih.1.trans ih.2, le_rfl⟩
    | turn count => exact ⟨by simp only [Tally.after]; omega, ih.2⟩

/-- The moments of a longer tape are those of the shorter one, and its end. -/
private theorem forall_split_concat {property : List Call → List Call → Prop} :
    (∀ before since, calls ++ [call] = before ++ since → property before since) ↔
      (∀ before since, calls = before ++ since → property before (since ++ [call])) ∧
        property (calls ++ [call]) [] := by
  constructor
  · intro all
    refine ⟨fun before since split => all before (since ++ [call]) ?_, all _ [] (by simp)⟩
    rw [split, List.append_assoc]
  · rintro ⟨shorter, whole⟩ before since split
    rcases List.eq_nil_or_concat since with rfl | ⟨rest, last, rfl⟩
    · rw [List.append_nil] at split
      exact split ▸ whole
    · rw [List.concat_eq_append, ← List.append_assoc] at split
      obtain ⟨rfl, same⟩ := List.append_inj' split rfl
      cases same
      rw [List.concat_eq_append]
      exact shorter before rest rfl

/-- What is consumed is the least, over all moments, of what was submitted by then and what the turns
since then are asked for. -/
theorem le_consumed_iff : n ≤ (tally calls).consumed ↔
    ∀ before since, calls = before ++ since → n ≤ (tally before).submitted + turns since := by
  induction calls using List.reverseRecOn generalizing n with
  | nil =>
    simp only [List.nil_eq, List.append_eq_nil_iff]
    constructor
    · rintro small before since ⟨rfl, rfl⟩
      exact small
    · exact fun all => all [] [] ⟨rfl, rfl⟩
  | append_singleton calls call ih =>
    obtain ⟨consumed, submitted⟩ := tally_ordered calls
    -- A turn comes late for no moment; the end of the tape is a moment of its own.
    have shifted : (∀ before since, calls = before ++ since →
        n ≤ (tally before).submitted + turns (since ++ [call])) ↔
        n - call.count ≤ (tally calls).consumed := by
      rw [ih]
      refine forall₃_congr fun before since _ => ?_
      rw [turns_concat]
      omega
    rw [forall_split_concat, tally_concat, shifted]
    cases call with
    | request =>
      change n ≤ (tally calls).consumed ↔ n - 0 ≤ _ ∧ n ≤ (tally calls).submitted + 0
      omega
    | submit =>
      change n ≤ (tally calls).consumed ↔ n - 0 ≤ _ ∧ n ≤ (tally calls).requested + 0
      omega
    | turn count =>
      change n ≤ (tally calls).consumed + min count _ ↔ n - count ≤ _ ∧ n ≤ (tally calls).submitted + 0
      omega

/-- Whether requests are served is a question of the rates. -/
theorem served_iff_paced : Served entries ⟨0, 0, 0⟩ calls ↔ Paced entries calls := by
  have free (before : List Call) : (tally before).Free entries ↔ ∀ earlier since,
      before = earlier ++ since →
        (tally before).requested < (tally earlier).submitted + turns since + entries := by
    have least := @le_consumed_iff ((tally before).requested + 1 - entries) before
    rw [Tally.Free, show (tally before).requested < (tally before).consumed + entries ↔
      (tally before).requested + 1 - entries ≤ (tally before).consumed by omega, least]
    exact forall₃_congr fun _ _ _ => by omega
  constructor
  · intro served before since rest split
    exact (free _).mp (served _ rest split) before since rfl
  · intro paced before rest split
    refine (free before).mpr fun earlier since same => ?_
    rw [same] at split ⊢
    exact paced earlier since rest split

theorem served_nil : Served entries start [] := fun before rest split => by simp at split

theorem served_append_iff : Served entries start (first ++ second) ↔
    Served entries start first ∧ Served entries (start.run first) second := by
  constructor
  · intro served
    refine ⟨fun before rest split => served before (rest ++ second) ?_,
      fun before rest split => ?_⟩
    · rw [split, List.append_assoc, List.cons_append]
    · rw [← Tally.run_append]
      exact served (first ++ before) rest (by rw [split, List.append_assoc])
  · rintro ⟨early, late⟩ before rest split
    rcases List.append_eq_append_iff.mp split with ⟨middle, rfl, same⟩ | ⟨middle, rfl, same⟩
    · rw [Tally.run_append]
      exact late middle rest same
    · cases middle with
      | nil =>
        rw [List.append_nil] at late
        exact late [] rest same.symm
      | cons call middle =>
        obtain ⟨rfl, -⟩ := List.cons.inj same
        exact early before middle rfl

theorem served_request_iff : Served entries start (.request :: calls) ↔
    start.Free entries ∧ Served entries (start.after .request) calls := by
  rw [← List.singleton_append, served_append_iff]
  refine and_congr_left fun _ => ⟨fun served => served [] [] rfl, fun free before rest split => ?_⟩
  cases before with
  | nil => exact free
  | cons first before => simp at split

theorem served_other_iff (other : call ≠ .request) : Served entries start (call :: calls) ↔
    Served entries (start.after call) calls := by
  rw [← List.singleton_append, served_append_iff]
  refine and_iff_right fun before rest split => ?_
  have member : Call.request ∈ [call] := split ▸ by simp
  exact absurd (List.mem_singleton.mp member).symm other

end UringServer.Backlog
