import Hwdb.Proofs.Assembly

/-!
# `Hwdb.Proofs.Relabelling`: what an assembly takes no notice of

An assembly hands on the path of its file, the numbers of lines and the properties, but
looks at none of them, and it never looks at the records that it has closed. A `Relabelling`
puts others in their place. A step commutes with it (`Relabelling.feed_assembly`), so the rest of a
file does (`Relabelling.complete_assembly`), as long as the lines keep coming one after the other.

`Assembly.complete` is the rest of a file from any assembly, with the kinds of its lines
given. Reading a file is the case of a new assembly (`Record.parse_eq_complete`).
-/

set_option autoImplicit false

namespace Hwdb

/-! ### The rest of a file -/

namespace Assembly

/-- What comes of an assembly that takes lines of the given kinds, of which the first comes
after `count` others, and then the end of the file. -/
def complete (count : Nat) : List Line → Assembly → Except StructuralError (List Record)
  | [], a =>
      match finish a with
      | .ok _ b => .ok b.closed
      | .error f b => .error ⟨count, f, b.closed.length⟩
  | l :: ls, a =>
      match feed (count + 1) l a with
      | .ok _ b => complete (count + 1) ls b
      | .error f b => .error ⟨count + 1, f, b.closed.length⟩

/-- Lines that are taken leave the rest of the file to the assembly that has taken them. The
numbers of the lines go on from one part to the other. -/
theorem complete_append {count : Nat} {ts : List Text} {a b : Assembly}
    (h : feedLines count ts a = .ok () b) (ls : List Line) :
    complete count (ts.map Line.ofText ++ ls) a = complete (count + ts.length) ls b := by
  induction ts generalizing count a with
  | nil =>
      obtain rfl : a = b := by
        cases h
        rfl
      rfl
  | cons t ts ih =>
      rw [feedLines_cons] at h
      rw [List.map_cons, List.cons_append, complete]
      -- The first line is taken, as otherwise the lines would not all be.
      cases hfeed : feed (count + 1) (Line.ofText t) a with
      | error f c =>
          rw [hfeed] at h
          cases h
      | ok _ c =>
          rw [hfeed] at h
          show complete (count + 1) (ts.map Line.ofText ++ ls) c = _
          rw [ih h, List.length_cons, Nat.add_right_comm, Nat.add_assoc]

/-- A line with a fault is the end of it, whatever the rest of the file is. The error is
that of the lines before. -/
theorem complete_append_of_error {count : Nat} {ts : List Text} {a b : Assembly}
    {e : StructuralError} (h : feedLines count ts a = .error e b) (ls : List Line) :
    complete count (ts.map Line.ofText ++ ls) a = .error e := by
  induction ts generalizing count a with
  | nil => cases h
  | cons t ts ih =>
      rw [feedLines_cons] at h
      rw [List.map_cons, List.cons_append, complete]
      cases hfeed : feed (count + 1) (Line.ofText t) a with
      | error f c =>
          rw [hfeed] at h
          cases h
          rfl
      | ok _ c =>
          rw [hfeed] at h
          exact ih h

end Assembly

/-- To read a file is to complete a new assembly with its lines. The lines come with their
kinds only, and so can be replaced by others. -/
theorem Record.parse_eq_complete (path : Path) (t : Text) :
    Record.parse path t
      = Assembly.complete 0 (t.lines.map Line.ofText) (Assembly.start path) := by
  rw [Record.parse, Assembly.feedText_eq, ← List.append_nil (t.lines.map Line.ofText)]
  cases h : Assembly.feedLines 0 t.lines (Assembly.start path) with
  | error e a => rw [Assembly.complete_append_of_error h]
  | ok _ a =>
      rw [Assembly.complete_append h, Nat.zero_add, Assembly.complete]
      simp only [Assembly.located]
      cases Assembly.finish a <;> rfl

/-! ### Relabellings -/

/-- Other labels for an assembly, and records to stand before its own. -/
structure Relabelling where
  /-- The path to put in the place of a path. -/
  path : Path → Path := id
  /-- The number to put in the place of the number of a line. -/
  number : Nat → Nat := id
  /-- The property to put in the place of a property. -/
  property : Property → Property := id
  /-- The records to put in front. -/
  earlier : List Record := []

namespace Relabelling

variable (σ : Relabelling)

/-- The line with its property replaced, if it is one. -/
def line : Line → Line
  | .property p => .property (σ.property p)
  | l => l

/-- The match key with another number. -/
def key (k : Numbered MatchKey) : Numbered MatchKey :=
  ⟨σ.number k.line, k.item⟩

/-- Another property with another number. -/
def numberedProperty (p : Numbered Property) : Numbered Property :=
  ⟨σ.number p.line, σ.property p.item⟩

/-- The record with other labels. -/
def record (r : Record) : Record :=
  { path := σ.path r.path
    line := σ.number r.line
    keys := r.keys.map σ.key
    properties := r.properties.map σ.numberedProperty }

/-- The block in hand with other labels. -/
def block : Block → Block
  | .empty => .empty
  | .comments => .comments
  | .header start keys => .header (σ.number start) (keys.map σ.key)
  | .body start keys properties =>
      .body (σ.number start) (keys.map σ.key) (properties.map σ.numberedProperty)

/-- The assembly with other labels. -/
def assembly (a : Assembly) : Assembly :=
  { path := σ.path a.path
    closed := σ.earlier ++ a.closed.map σ.record
    block := σ.block a.block }

/-- The outcome of a step with other labels. A fault is the same. -/
def outcome : EStateM.Result Fault Assembly Unit → EStateM.Result Fault Assembly Unit
  | .ok _ a => .ok () (σ.assembly a)
  | .error f a => .error f (σ.assembly a)

/-- The error with the other number and with the records in front counted. -/
def error (e : StructuralError) : StructuralError :=
  ⟨σ.number e.line, e.fault, e.completeRecords + σ.earlier.length⟩

/-- What is read with other labels. -/
def reading :
    Except StructuralError (List Record) → Except StructuralError (List Record)
  | .ok rs => .ok (σ.earlier ++ rs.map σ.record)
  | .error e => .error (σ.error e)

/-- Labels that leave properties as they are leave lines as they are. A line has no number
and no path by itself. -/
theorem line_eq_self (h : σ.property = id) (l : Line) : σ.line l = l := by
  cases l with
  | property p => rw [line, h, id]
  | _ => rfl

/-- Labels that leave properties as they are leave all lines of a file as they are. -/
theorem map_line_eq_self (h : σ.property = id) (ls : List Line) : ls.map σ.line = ls :=
  (List.map_congr_left fun l _ => σ.line_eq_self h l).trans (List.map_id ls)

/-- A new assembly with other labels is a new assembly of the other path, with the records
in front. No block is in hand yet, so there is nothing else to label. -/
theorem assembly_start (path : Path) :
    σ.assembly (.start path) = { Assembly.start (σ.path path) with closed := σ.earlier } := by
  simp [assembly, Assembly.start, block]

/-- A fault at an assembly with other labels is reported with the other number, and the
records in front count. -/
theorem error_mk (number : Nat) (fault : Fault) (a : Assembly) :
    ⟨σ.number number, fault, (σ.assembly a).closed.length⟩
      = σ.error ⟨number, fault, a.closed.length⟩ := by
  rw [assembly, List.length_append, List.length_map, Nat.add_comm]
  rfl

/-- A record is closed with other labels as it is without. A record without a property is
refused in both. -/
theorem close_assembly (start : Nat) (keys : List (Numbered MatchKey))
    (properties : List (Numbered Property)) (a : Assembly) :
    Assembly.close (σ.number start) (keys.map σ.key) (properties.map σ.numberedProperty)
        (σ.assembly a)
      = σ.outcome (Assembly.close start keys properties a) := by
  cases properties with
  | nil => rfl
  | cons p ps =>
      show EStateM.Result.ok () _ = EStateM.Result.ok () _
      simp [assembly, block, record]

/-- A step commutes with other labels. The cases are the kinds of a line in each state of a
block, and in all of them labels are only carried along. -/
theorem feed_assembly (n : Nat) (l : Line) (a : Assembly) :
    Assembly.feed (σ.number n) (σ.line l) (σ.assembly a)
      = σ.outcome (Assembly.feed n l a) := by
  obtain ⟨path, closed, b⟩ := a
  -- In every state the step looks at the kind of the line alone. The only one that does more
  -- than to go on with another block is the one that closes a record.
  cases b with
  | empty => cases l <;> rfl
  | comments => cases l <;> rfl
  | header start keys =>
      cases l with
      | key k =>
          show EStateM.Result.ok () _ = EStateM.Result.ok () _
          simp [assembly, block, key]
      | _ => rfl
  | body start keys properties =>
      cases l with
      | blank => exact σ.close_assembly start keys properties _
      | property p =>
          show EStateM.Result.ok () _ = EStateM.Result.ok () _
          simp [assembly, block, numberedProperty]
      | _ => rfl

/-- The end of a file commutes with other labels. Its record, if there is one, is closed
with the other labels. -/
theorem finish_assembly (a : Assembly) :
    Assembly.finish (σ.assembly a) = σ.outcome (Assembly.finish a) := by
  obtain ⟨path, closed, b⟩ := a
  cases b with
  | body start keys properties => exact σ.close_assembly start keys properties _
  | _ => rfl

/-- The rest of a file commutes with other labels that number its lines one after the other.
The hypothesis asks for the numbers of the lines to come, and for that of the last line
before them, which a fault at the end would have. -/
theorem complete_assembly {count count' : Nat} {ls : List Line}
    (h : ∀ i ≤ ls.length, σ.number (count + i) = count' + i) (a : Assembly) :
    Assembly.complete count' (ls.map σ.line) (σ.assembly a)
      = σ.reading (Assembly.complete count ls a) := by
  -- On the lines: the numbers stay in step, because the next line is the next one under
  -- both numberings.
  induction ls generalizing count count' a with
  | nil =>
      have hcount : σ.number count = count' := h 0 (Nat.le_refl 0)
      rw [List.map_nil, Assembly.complete, Assembly.complete, σ.finish_assembly, ← hcount]
      cases Assembly.finish a with
      | ok _ b => rfl
      | error f b => exact congrArg Except.error (σ.error_mk count f b)
  | cons l ls ih =>
      have hcount : σ.number (count + 1) = count' + 1 :=
        h 1 (Nat.succ_le_succ (Nat.zero_le _))
      have hrest : ∀ i ≤ ls.length, σ.number (count + 1 + i) = count' + 1 + i := fun i hi => by
        rw [Nat.add_assoc, h (1 + i) (by rw [List.length_cons]; omega), Nat.add_assoc]
      rw [List.map_cons, Assembly.complete, Assembly.complete, ← hcount, σ.feed_assembly]
      cases Assembly.feed (count + 1) l a with
      | ok _ b =>
          rw [← hcount] at hrest
          exact ih hrest b
      | error f b => exact congrArg Except.error (σ.error_mk (count + 1) f b)

end Relabelling

end Hwdb
