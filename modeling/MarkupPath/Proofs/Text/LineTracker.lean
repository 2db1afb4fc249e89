import MarkupPath.Proofs.Text.Newlines
import MarkupPath.Proofs.Text.Slice

/-!
# Tracking lines

When places are asked for in ascending order, there is no need for a table of all
lines. A tracker keeps the line of the last place, and for the next one looks at
the bytes between the two only. What it keeps is the same as if it had counted
from the beginning, so its positions are those that the bytes before each place
tell.
-/

namespace MarkupPath

/-- The line of the last place that was asked for. -/
structure LineTracker where
  line : Nat := 0
  lineStart : Nat := 0
  /-- The bytes before this place have been looked at. -/
  scanned : Nat := 0

namespace LineTracker

open Text

/-- Begins a line behind a newline, whose place is counted from where the tracker is. -/
def noteNewline (tracker : LineTracker) (place : Nat) : LineTracker :=
  { tracker with line := tracker.line + 1, lineStart := tracker.scanned + place + 1 }

/-- Moves on to a place and notes the newlines on the way. The tracker never moves back. -/
def seek (tracker : LineTracker) (bytes : List UInt8) (place : Nat) :
    Except BadCut LineTracker :=
  if tracker.scanned < place then do
    let passed ← cutBytes bytes tracker.scanned place
    .ok { (newlines passed).foldl noteNewline tracker with scanned := place }
  else .ok tracker

/-- The position of a place, as far as the tracker has moved on to it. -/
def position (tracker : LineTracker) (place : Nat) : Position where
  offset := place
  line := tracker.line
  column := place - tracker.lineStart

def positions (bytes : List UInt8) : LineTracker → List Nat → Except BadCut (List Position)
  | _, [] => .ok []
  | tracker, place :: later => do
      let moved ← tracker.seek bytes place
      let rest ← positions bytes moved later
      .ok (moved.position place :: rest)

/-- The tracker is as if it had counted the newlines before its place from the beginning. -/
structure Tracks (tracker : LineTracker) (bytes : List UInt8) : Prop where
  inside : tracker.scanned ≤ bytes.length
  line_eq : tracker.line = (bytes.take tracker.scanned).count newline
  lineStart_eq : tracker.lineStart = lastLineStart (bytes.take tracker.scanned)

theorem tracks_initial (bytes : List UInt8) : Tracks {} bytes :=
  ⟨Nat.zero_le _, rfl, rfl⟩

theorem scanned_foldl (tracker : LineTracker) (places : List Nat) :
    (places.foldl noteNewline tracker).scanned = tracker.scanned := by
  induction places generalizing tracker with
  | nil => rfl
  | cons place later ih => exact ih (tracker.noteNewline place)

theorem line_foldl (tracker : LineTracker) (places : List Nat) :
    (places.foldl noteNewline tracker).line = tracker.line + places.length := by
  induction places generalizing tracker with
  | nil => rfl
  | cons place later ih =>
      rw [List.foldl_cons, ih, List.length_cons]
      exact Nat.succ_add_eq_add_succ tracker.line later.length

theorem lineStart_foldl (tracker : LineTracker) (places : List Nat) :
    (places.foldl noteNewline tracker).lineStart =
      match places.getLast? with
      | some place => tracker.scanned + place + 1
      | none => tracker.lineStart := by
  induction places using List.reverseRecOn with
  | nil => rfl
  | append_singleton places place _ =>
      rw [List.foldl_append, List.foldl_cons, List.foldl_nil, noteNewline, scanned_foldl,
        List.getLast?_concat]

section Tracks

variable {tracker : LineTracker} {bytes : List UInt8} {place : Nat}

/-- A line starts where the last newline is, be it in the bytes passed now or before. -/
theorem lineStart_foldl_newlines (tracks : tracker.Tracks bytes) (passed : List UInt8) :
    ((newlines passed).foldl noteNewline tracker).lineStart =
      lastLineStart (bytes.take tracker.scanned ++ passed) := by
  have length : (bytes.take tracker.scanned).length = tracker.scanned :=
    List.length_take_of_le tracks.inside
  rw [lineStart_foldl]
  cases isLast : (newlines passed).getLast? with
  | none =>
      have absent := newlines_eq_nil_iff.mp (List.getLast?_eq_none_iff.mp isLast)
      rw [lastLineStart_append_of_not_mem absent]
      exact tracks.lineStart_eq
  | some last =>
      rw [lastLineStart_append_of_getLast? isLast, length, Nat.add_comm last]

theorem exists_seek (tracks : tracker.Tracks bytes) (ahead : tracker.scanned ≤ place)
    (inside : place ≤ bytes.length) :
    ∃ moved, tracker.seek bytes place = .ok moved ∧ moved.scanned = place ∧
      moved.Tracks bytes := by
  rcases Nat.lt_or_eq_of_le ahead with further | rfl
  · have passed : bytes.take place =
        bytes.take tracker.scanned ++ (bytes.take place).drop tracker.scanned := by
      have split := List.take_append_drop tracker.scanned (bytes.take place)
      rw [List.take_take, Nat.min_eq_left ahead] at split
      exact split.symm
    rw [seek, if_pos further, cutBytes, if_pos ⟨ahead, inside⟩]
    refine ⟨_, rfl, rfl, inside, ?_, ?_⟩
    · dsimp only
      rw [line_foldl, length_newlines, tracks.line_eq, passed, List.count_append, ← passed]
    · dsimp only
      rw [lineStart_foldl_newlines tracks, ← passed]
  · rw [seek, if_neg (Nat.lt_irrefl _)]
    exact ⟨tracker, rfl, rfl, tracks⟩

theorem Tracks.position_eq (tracks : tracker.Tracks bytes) (here : tracker.scanned = place) :
    tracker.position place = Position.behind (bytes.take place) := by
  subst here
  rw [position, Position.behind, tracks.line_eq, tracks.lineStart_eq,
    List.length_take_of_le tracks.inside]

/-- For places in ascending order, the tracker gives what the bytes before each of them tell. -/
theorem positions_eq {places : List Nat} (tracks : tracker.Tracks bytes)
    (ascending : places.Pairwise (· ≤ ·))
    (within : ∀ place ∈ places, tracker.scanned ≤ place ∧ place ≤ bytes.length) :
    positions bytes tracker places =
      .ok (places.map fun place => Position.behind (bytes.take place)) := by
  induction places generalizing tracker with
  | nil => rfl
  | cons place later ih =>
      rcases List.pairwise_cons.mp ascending with ⟨first_le, laterAscending⟩
      rcases within place List.mem_cons_self with ⟨ahead, inside⟩
      rcases exists_seek tracks ahead inside with ⟨moved, found, here, movedTracks⟩
      have rest := ih movedTracks laterAscending fun other member =>
        ⟨here ▸ first_le other member, (within other (List.mem_cons_of_mem place member)).2⟩
      rw [positions, found]
      simp only [bind, Except.bind, rest, movedTracks.position_eq here, List.map_cons]

end Tracks

end LineTracker

end MarkupPath
