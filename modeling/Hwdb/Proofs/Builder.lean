import Hwdb.Proofs.EntryLines

/-!
# `Hwdb.Proofs.Builder`: an assembly in registers

The type of a block says which parts it has: comments have no match keys, and there is no
room for a property before the first match key. A `Builder` has the same work to do with
registers that know nothing of each other. There is a list for match keys, one for
properties and a number for the line of the first match key, and the `Phase` only tells
what may come next. Nothing but the code keeps the registers in line with the phase.

`Builder.Valid` says what they have to be like. `feed_cases` says all that a line can do: it
makes a `Step`, or the line has a fault and the registers stay as they are. So one look at
each kind of step gives `Valid.step`, and with it `Valid` holds of every builder that lines
with larger and larger numbers lead to (`valid_of_reached`).

`Builder.assembly` puts the registers back into a block. If they are valid, a line does the
same to both (`Valid.feed_assembly`), and so does the end of the file (`finish_assembly`). If
they are not, a property left over from an earlier record would come back in a later one. So
reading a file is a run of a builder (`exists_reached_of_parse`), and its records are those
that the builder has closed.
-/

set_option autoImplicit false

namespace Hwdb

/-- The states that lines with larger and larger numbers, of which the first is positive,
lead to from a state, as long as no line has a fault. The number of the last line is given,
too. -/
inductive Reached {σ : Type} (feed : Nat → Line → EStateM Fault σ Unit) (start : σ) :
    Nat → σ → Prop
  | start : Reached feed start 0 start
  | step {last number : Nat} {s s' : σ} (line : Line) : Reached feed start last s →
      last < number → feed number line s = .ok () s' → Reached feed start number s'

/-- The numbers of the lines of a record: first its match keys, then its properties. -/
def Record.lineNumbers (r : Record) : List Nat :=
  r.entryLines.map Numbered.line

/-- What a record has when its block has ended. -/
structure Record.Complete (r : Record) : Prop where
  /-- There is a match key. -/
  keys_ne_nil : r.keys ≠ []
  /-- There is a property. -/
  properties_ne_nil : r.properties ≠ []
  /-- The record stands on the line of its first match key. -/
  head?_keys : r.keys.head?.map Numbered.line = some r.line

/-- What may come next in a file. -/
inductive Phase
  /-- A block, or the end of the file. -/
  | start
  /-- More comments and match keys, and the body once there has been a match key. -/
  | header (sawKey : Bool)
  /-- More comments and properties. -/
  | properties
  deriving DecidableEq, Repr

/-- A file of which some lines have been taken, in registers. -/
structure Builder where
  /-- The file. -/
  path : Path
  /-- What may come next. -/
  phase : Phase
  /-- The records of the blocks that have ended. -/
  closed : List Record
  /-- The match keys of the record in hand. -/
  keys : List (Numbered MatchKey)
  /-- The properties of the record in hand. -/
  properties : List (Numbered Property)
  /-- The line of the first match key in hand. Between records it is out of date. -/
  firstLine : Nat
  deriving DecidableEq, Repr

namespace Builder

/-! ### The machine -/

/-- A builder that has taken no line. -/
def new (path : Path) : Builder :=
  { path, phase := .start, closed := [], keys := [], properties := [], firstLine := 0 }

/-- Goes to a phase. -/
def enter (phase : Phase) (b : Builder) : Builder :=
  { b with phase }

/-- Takes a match key. -/
def pushKey (number : Nat) (k : MatchKey) (b : Builder) : Builder :=
  { b with
    keys := b.keys ++ [⟨number, k⟩]
    firstLine := if b.keys.isEmpty then number else b.firstLine }

/-- Takes a property. -/
def pushProperty (number : Nat) (p : Property) (b : Builder) : Builder :=
  { b with properties := b.properties ++ [⟨number, p⟩] }

/-- The record in hand. -/
def pending (b : Builder) : Record :=
  { path := b.path, line := b.firstLine, keys := b.keys, properties := b.properties }

/-- Ends the record in hand. -/
def closeRecord (b : Builder) : Builder :=
  { b with phase := .start, closed := b.closed ++ [b.pending], keys := [], properties := [] }

/-- Takes the line with the given number. -/
def feed (number : Nat) (line : Line) : EStateM Fault Builder Unit := do
  match (← get).phase, line with
  -- Between blocks.
  | .start, .blank => throw .unexpectedBlank
  | .start, .comment => modify (enter (.header false))
  | .start, .key k => do
      modify (pushKey number k)
      modify (enter (.header true))
  | .start, .property _ | .start, .malformedProperty _ => throw .propertyBeforeKey
  | .start, .indentedComment => throw (.notAKey "indented comment".toList)
  | .start, .unknown text => throw (.notAKey text)
  -- Among comments and match keys.
  | .header _, .comment => pure ()
  | .header _, .key k => do
      modify (pushKey number k)
      modify (enter (.header true))
  | .header false, .blank => modify (enter .start)
  | .header true, .blank => throw .missingProperties
  | .header false, .property _ | .header false, .malformedProperty _ =>
      throw .propertyBeforeKey
  | .header true, .property p => do
      modify (pushProperty number p)
      modify (enter .properties)
  | .header true, .malformedProperty text => throw (.malformedProperty text)
  | .header false, .indentedComment => throw (.notAKey "indented comment".toList)
  | .header true, .indentedComment => modify (enter .properties)
  | .header _, .unknown text => throw (.notAKey text)
  -- Among properties.
  | .properties, .property p => modify (pushProperty number p)
  | .properties, .comment | .properties, .indentedComment => pure ()
  | .properties, .blank => do
      if (← get).properties.isEmpty then
        throw .missingProperties
      modify closeRecord
  | .properties, .malformedProperty text => throw (.malformedProperty text)
  | .properties, .key k => throw (.missingSeparator k.text)
  | .properties, .unknown text => throw (.notAKey text)

/-- Takes the end of the file. -/
def finish : EStateM Fault Builder Unit := do
  match (← get).phase with
  | .start | .header false => pure ()
  | .header true => throw .missingProperties
  | .properties => do
      if (← get).properties.isEmpty then
        throw .missingProperties
      modify closeRecord

/-! ### What a step can do -/

/-- What a line does to a builder if it may stand where it stands. -/
inductive Step (number : Nat) (b : Builder) : Line → Builder → Prop
  /-- A comment in a block changes nothing. -/
  | comment : b.phase ≠ .start → Step number b .comment b
  /-- Nor does an indented one among properties. -/
  | indentedComment : b.phase = .properties → Step number b .indentedComment b
  /-- A comment begins a block. -/
  | beginComments : b.phase = .start → Step number b .comment (b.enter (.header false))
  /-- A blank line ends a block of comments. -/
  | endComments : b.phase = .header false → Step number b .blank (b.enter .start)
  /-- A match key comes before all properties. -/
  | key {k : MatchKey} : b.phase ≠ .properties →
      Step number b (.key k) ((b.pushKey number k).enter (.header true))
  /-- An indented comment after a match key begins the body. -/
  | beginBody : b.phase = .header true → Step number b .indentedComment (b.enter .properties)
  /-- A property comes after a match key. -/
  | property {p : Property} : b.phase = .header true ∨ b.phase = .properties →
      Step number b (.property p) ((b.pushProperty number p).enter .properties)
  /-- A blank line ends a record that has a property. -/
  | close : b.phase = .properties → b.properties ≠ [] → Step number b .blank b.closeRecord

/-- A line makes a step, or it has a fault and changes nothing. What is proved about the
invariant goes through this, so those proofs do not open the arms of the builder. -/
theorem feed_cases (number : Nat) (line : Line) (b : Builder) :
    (∃ b', feed number line b = .ok () b' ∧ Step number b line b')
      ∨ ∃ fault, feed number line b = .error fault b := by
  obtain ⟨path, phase, closed, keys, properties, firstLine⟩ := b
  match phase, line with
  | .start, .comment => exact Or.inl ⟨_, rfl, .beginComments rfl⟩
  | .start, .key k => exact Or.inl ⟨_, rfl, .key (by simp)⟩
  | .header _, .comment => exact Or.inl ⟨_, rfl, .comment (by simp)⟩
  | .header true, .key k => exact Or.inl ⟨_, rfl, .key (by simp)⟩
  | .header false, .key k => exact Or.inl ⟨_, rfl, .key (by simp)⟩
  | .header false, .blank => exact Or.inl ⟨_, rfl, .endComments rfl⟩
  | .header true, .indentedComment => exact Or.inl ⟨_, rfl, .beginBody rfl⟩
  | .header true, .property p => exact Or.inl ⟨_, rfl, .property (Or.inl rfl)⟩
  | .properties, .comment => exact Or.inl ⟨_, rfl, .comment (by simp)⟩
  | .properties, .indentedComment => exact Or.inl ⟨_, rfl, .indentedComment rfl⟩
  | .properties, .property p => exact Or.inl ⟨_, rfl, .property (Or.inr rfl)⟩
  | .properties, .blank =>
      -- Here it is the register and not the phase that decides.
      cases properties with
      | nil => exact Or.inr ⟨_, rfl⟩
      | cons p ps => exact Or.inl ⟨_, rfl, .close rfl (by simp)⟩
  | .start, .blank | .start, .property _ | .start, .malformedProperty _
  | .start, .indentedComment | .start, .unknown _
  | .header true, .blank | .header true, .malformedProperty _
  | .header true, .unknown _ | .header false, .property _
  | .header false, .malformedProperty _ | .header false, .indentedComment
  | .header false, .unknown _ | .properties, .malformedProperty _ | .properties, .key _
  | .properties, .unknown _ => exact Or.inr ⟨_, rfl⟩

/-- A line with a fault leaves all registers as they are. In particular the records that
were closed are still there, and a fault can count them. -/
theorem eq_of_feed_eq_error {number : Nat} {line : Line} {b b' : Builder} {fault : Fault}
    (h : feed number line b = .error fault b') : b' = b := by
  rcases feed_cases number line b with ⟨next, hnext, -⟩ | ⟨fault', hfault⟩
  · rw [hnext] at h
    cases h
  · rw [hfault] at h
    cases h
    rfl

/-- A line without a fault makes a step. With `Step` in hand, the invariant needs one case
for each way to take a line. -/
theorem step_of_feed_eq_ok {number : Nat} {line : Line} {b b' : Builder}
    (h : feed number line b = .ok () b') : Step number b line b' := by
  rcases feed_cases number line b with ⟨next, hnext, hstep⟩ | ⟨fault, hfault⟩
  · rw [hnext] at h
    cases h
    exact hstep
  · rw [hfault] at h
    cases h

/-- The end of the file closes the record in hand, if there is one, or has a fault. Comments
alone leave the builder as it is. -/
theorem finish_cases (b : Builder) :
    (finish b = .ok () b ∧ (b.phase = .start ∨ b.phase = .header false))
      ∨ (finish b = .ok () b.closeRecord ∧ b.phase = .properties ∧ b.properties ≠ [])
      ∨ ∃ fault, finish b = .error fault b := by
  obtain ⟨path, phase, closed, keys, properties, firstLine⟩ := b
  match phase, properties with
  | .start, _ => exact Or.inl ⟨rfl, Or.inl rfl⟩
  | .header false, _ => exact Or.inl ⟨rfl, Or.inr rfl⟩
  | .header true, _ => exact Or.inr (Or.inr ⟨_, rfl⟩)
  | .properties, [] => exact Or.inr (Or.inr ⟨_, rfl⟩)
  | .properties, p :: ps => exact Or.inr (Or.inl ⟨rfl, rfl, by simp⟩)

/-- An end of the file that has a fault leaves all registers as they are. -/
theorem eq_of_finish_eq_error {b b' : Builder} {fault : Fault}
    (h : finish b = .error fault b') : b' = b := by
  rcases finish_cases b with ⟨hok, -⟩ | ⟨hok, -⟩ | ⟨fault', hfault⟩
  · rw [hok] at h
    cases h
  · rw [hok] at h
    cases h
  · rw [hfault] at h
    cases h
    rfl

/-! ### The invariant -/

/-- The numbers of all lines in a builder: those of the closed records, then those of the
match keys in hand and of the properties in hand. -/
def lineNumbers (b : Builder) : List Nat :=
  (b.closed ++ [b.pending]).flatMap Record.lineNumbers

/-- What holds of the registers between two lines, where `last` is the number of the line
before. -/
structure Valid (last : Nat) (b : Builder) : Prop where
  /-- There is no match key in hand exactly before a block and after comments alone. -/
  keys_eq_nil_iff : b.keys = [] ↔ b.phase = .start ∨ b.phase = .header false
  /-- There are properties in hand only where more of them may come. -/
  phase_eq : b.properties ≠ [] → b.phase = .properties
  /-- The line of the first match key in hand is up to date. -/
  firstLine_eq : ∀ k ∈ b.keys.head?, b.firstLine = k.line
  /-- From what is closed to what is in hand, the line numbers increase, -/
  pairwise_lt : b.lineNumbers.Pairwise (· < ·)
  /-- and none is larger than the last one. -/
  le_last : ∀ n ∈ b.lineNumbers, n ≤ last
  /-- Every closed record has all that belongs to a record. -/
  complete : ∀ r ∈ b.closed, r.Complete

/-- The line numbers of a builder, with its match keys and its properties apart. The
operations of a builder change one of the parts at a time. -/
theorem lineNumbers_eq (b : Builder) :
    b.lineNumbers = b.closed.flatMap Record.lineNumbers
      ++ (b.keys.map Numbered.line ++ b.properties.map Numbered.line) := by
  simp [lineNumbers, Record.lineNumbers, Record.entryLines, pending, Numbered.map,
    Function.comp_def]

/-- A match key comes last as long as there are no properties in hand: the numbers of
properties come after those of match keys. -/
theorem lineNumbers_pushKey {b : Builder} (h : b.properties = []) (number : Nat)
    (k : MatchKey) : (b.pushKey number k).lineNumbers = b.lineNumbers ++ [number] := by
  simp [lineNumbers_eq, pushKey, h]

/-- A property comes last. There may be match keys and properties in hand, and it comes
after all of them. -/
theorem lineNumbers_pushProperty (b : Builder) (number : Nat) (p : Property) :
    (b.pushProperty number p).lineNumbers = b.lineNumbers ++ [number] := by
  simp [lineNumbers_eq, pushProperty]

/-- Closing the record in hand moves its numbers from the one part to the other, and changes
none. So the order of the numbers is kept for free. -/
theorem lineNumbers_closeRecord (b : Builder) :
    b.closeRecord.lineNumbers = b.lineNumbers := by
  simp [lineNumbers, closeRecord, pending, Record.lineNumbers, Record.entryLines]

namespace Valid

variable {last number : Nat} {b b' : Builder}

/-- Outside of the properties of a block there are none in hand. It is the contrapositive of
the second part of the invariant, in the form in which the steps use it. -/
theorem properties_eq_nil (h : b.Valid last) (hphase : b.phase ≠ .properties) :
    b.properties = [] := by
  by_contra hproperties
  exact hphase (h.phase_eq hproperties)

/-- Once a match key has come, there is one in hand until the record is closed. So a record
that is closed has one. -/
theorem keys_ne_nil (h : b.Valid last) (hphase : b.phase = .header true ∨ b.phase = .properties) :
    b.keys ≠ [] := by
  rw [ne_eq, h.keys_eq_nil_iff]
  rcases hphase with hphase | hphase <;> simp [hphase]

/-- Before a block and after comments alone there is nothing in hand, so nothing is lost
when a blank line or the end of the file comes there. -/
theorem pending_eq_nil (h : b.Valid last) (hphase : b.phase = .start ∨ b.phase = .header false) :
    b.keys = [] ∧ b.properties = [] := by
  refine ⟨h.keys_eq_nil_iff.2 hphase, h.properties_eq_nil ?_⟩
  rcases hphase with hphase | hphase <;> simp [hphase]

/-- The invariant holds before the first line. All registers are empty, and zero bounds no
number. -/
theorem new (path : Path) : (Builder.new path).Valid 0 where
  keys_eq_nil_iff := iff_of_true rfl (Or.inl rfl)
  phase_eq := fun h => absurd rfl h
  firstLine_eq := by simp [Builder.new]
  pairwise_lt := .nil
  le_last := by simp [lineNumbers_eq, Builder.new]
  complete := by simp [Builder.new]

/-- The invariant goes by a bound for the line numbers, which may be any larger one. A
comment changes nothing but that bound. -/
theorem mono (h : b.Valid last) (hle : last ≤ number) : b.Valid number :=
  { h with le_last := fun n hn => Nat.le_trans (h.le_last n hn) hle }

/-- A builder may go to any phase that fits what is in hand. The other registers are not
touched. What has to be shown is that the new phase says the truth about them. -/
theorem enter {phase : Phase} (h : b.Valid last)
    (hkeys : b.keys = [] ↔ phase = .start ∨ phase = .header false)
    (hproperties : b.properties ≠ [] → phase = .properties) : (b.enter phase).Valid last :=
  { h with keys_eq_nil_iff := hkeys, phase_eq := hproperties }

/-- A later line comes after all lines in hand, so its number may be put behind theirs. It
is what keeps the numbers in order when a line is taken. -/
theorem pairwise_concat (h : b.Valid last) (hlt : last < number) :
    (b.lineNumbers ++ [number]).Pairwise (· < ·) := by
  rw [List.pairwise_append]
  refine ⟨h.pairwise_lt, List.pairwise_singleton _ _, fun n hn m hm => ?_⟩
  obtain rfl := List.mem_singleton.1 hm
  exact Nat.lt_of_le_of_lt (h.le_last n hn) hlt

/-- With the number of a later line behind them, no number is larger than that one. The
number itself is the new bound. -/
theorem le_of_mem_concat (h : b.Valid last) (hlt : last < number) :
    ∀ n ∈ b.lineNumbers ++ [number], n ≤ number := by
  intro n hn
  rcases List.mem_append.1 hn with hn | hn
  · have := h.le_last n hn
    omega
  · exact Nat.le_of_eq (List.mem_singleton.1 hn)

/-- A match key keeps the invariant, unless the properties have begun. If it is the first
one, the number of the first line is brought up to date. -/
theorem pushKey (h : b.Valid last) (hlt : last < number) (hphase : b.phase ≠ .properties)
    (k : MatchKey) : ((b.pushKey number k).enter (.header true)).Valid number where
  keys_eq_nil_iff := by simp [Builder.enter, Builder.pushKey]
  phase_eq := fun hproperties => absurd (h.properties_eq_nil hphase) hproperties
  firstLine_eq := by
    show ∀ k' ∈ (b.keys ++ [Numbered.mk number k]).head?,
      (if b.keys.isEmpty then number else b.firstLine) = k'.line
    cases hkeys : b.keys with
    | nil => simp
    | cons k₀ ks => simpa [hkeys] using h.firstLine_eq
  pairwise_lt := by
    show (b.pushKey number k).lineNumbers.Pairwise (· < ·)
    rw [lineNumbers_pushKey (h.properties_eq_nil hphase)]
    exact h.pairwise_concat hlt
  le_last := by
    show ∀ n ∈ (b.pushKey number k).lineNumbers, n ≤ number
    rw [lineNumbers_pushKey (h.properties_eq_nil hphase)]
    exact h.le_of_mem_concat hlt
  complete := h.complete

/-- A property keeps the invariant if there is a match key before it. The number goes behind
all others, as no later line has been taken. -/
theorem pushProperty (h : b.Valid last) (hlt : last < number)
    (hphase : b.phase = .header true ∨ b.phase = .properties) (p : Property) :
    ((b.pushProperty number p).enter .properties).Valid number where
  keys_eq_nil_iff := iff_of_false (h.keys_ne_nil hphase) (by simp [Builder.enter])
  phase_eq := fun _ => rfl
  firstLine_eq := h.firstLine_eq
  pairwise_lt := by
    show (b.pushProperty number p).lineNumbers.Pairwise (· < ·)
    rw [lineNumbers_pushProperty]
    exact h.pairwise_concat hlt
  le_last := by
    show ∀ n ∈ (b.pushProperty number p).lineNumbers, n ≤ number
    rw [lineNumbers_pushProperty]
    exact h.le_of_mem_concat hlt
  complete := h.complete

/-- With a property, the record in hand has all that belongs to a record. The parts come
from the invariant: a match key, the line of the first one, and numbers in order. -/
theorem complete_pending (h : b.Valid last) (hphase : b.phase = .properties)
    (hproperties : b.properties ≠ []) : b.pending.Complete where
  keys_ne_nil := h.keys_ne_nil (Or.inr hphase)
  properties_ne_nil := hproperties
  head?_keys := by
    obtain ⟨k, ks, hkeys⟩ := List.exists_cons_of_ne_nil (h.keys_ne_nil (Or.inr hphase))
    have hfirst : b.firstLine = k.line := h.firstLine_eq k (by simp [hkeys])
    show b.keys.head?.map Numbered.line = some b.firstLine
    rw [hkeys, hfirst]
    rfl

/-- Closing a record with a property keeps the invariant: what is in hand is emptied, and
the closed record is complete. -/
theorem closeRecord (h : b.Valid last) (hphase : b.phase = .properties)
    (hproperties : b.properties ≠ []) : b.closeRecord.Valid last where
  keys_eq_nil_iff := iff_of_true rfl (Or.inl rfl)
  phase_eq := fun hne => absurd rfl hne
  firstLine_eq := by simp [Builder.closeRecord]
  pairwise_lt := by
    rw [lineNumbers_closeRecord]
    exact h.pairwise_lt
  le_last := by
    rw [lineNumbers_closeRecord]
    exact h.le_last
  complete := by
    intro r hr
    rcases List.mem_append.1 hr with hr | hr
    · exact h.complete r hr
    · rw [List.mem_singleton.1 hr]
      exact h.complete_pending hphase hproperties

/-- A step at a later line keeps the invariant. The cases are the steps, and each of them is
one of the operations above. -/
theorem step {line : Line} (h : b.Valid last) (hlt : last < number)
    (hstep : Step number b line b') : b'.Valid number := by
  have hle : last ≤ number := Nat.le_of_lt hlt
  cases hstep with
  | comment | indentedComment => exact h.mono hle
  | beginComments hphase =>
      obtain ⟨hkeys, hproperties⟩ := h.pending_eq_nil (Or.inl hphase)
      exact (h.mono hle).enter (by simp [hkeys]) (by simp [hproperties])
  | endComments hphase =>
      obtain ⟨hkeys, hproperties⟩ := h.pending_eq_nil (Or.inr hphase)
      exact (h.mono hle).enter (by simp [hkeys]) (by simp [hproperties])
  | key hphase => exact h.pushKey hlt hphase _
  | beginBody hphase =>
      have hkeys := h.keys_ne_nil (Or.inl hphase)
      exact (h.mono hle).enter (by simp [hkeys]) (fun _ => rfl)
  | property hphase => exact h.pushProperty hlt hphase _
  | close hphase hproperties => exact (h.closeRecord hphase hproperties).mono hle

/-- The end of the file keeps the invariant, too. There is no later line, so the bound
stays. -/
theorem finish (h : b.Valid last) (hfinish : Builder.finish b = .ok () b') : b'.Valid last := by
  rcases finish_cases b with ⟨hok, -⟩ | ⟨hok, hphase, hproperties⟩ | ⟨fault, hfault⟩
  · rw [hok] at hfinish
    cases hfinish
    exact h
  · rw [hok] at hfinish
    cases hfinish
    exact h.closeRecord hphase hproperties
  · rw [hfault] at hfinish
    cases hfinish

end Valid

/-- Every builder that can be reached is valid, by induction on how it was reached. Each
step is one of `feed`, at a later line than the one before. -/
theorem valid_of_reached {path : Path} {last : Nat} {b : Builder}
    (h : Reached feed (new path) last b) : b.Valid last := by
  induction h with
  | start => exact .new path
  | step line _ hlt hfeed ih => exact ih.step hlt (step_of_feed_eq_ok hfeed)

/-! ### The assembly of a builder -/

/-- The registers put back into a block. -/
def assembly (b : Builder) : Assembly where
  path := b.path
  closed := b.closed
  block :=
    match b.phase with
    | .start => .empty
    | .header false => .comments
    | .header true => .header b.firstLine b.keys
    | .properties => .body b.firstLine b.keys b.properties

/-- What a step gives, with the assembly for the builder. -/
def onAssembly : EStateM.Result Fault Builder Unit → EStateM.Result Fault Assembly Unit
  | .ok () b => .ok () b.assembly
  | .error fault b => .error fault b.assembly

/-- A line does the same to the assembly of the registers: it has a fault in both, or the
assembly of the new registers is the new assembly. Registers that are not valid could hold
what no assembly remembers. -/
theorem Valid.feed_assembly {last : Nat} {b : Builder} (h : b.Valid last) (number : Nat)
    (line : Line) :
    Assembly.feed number line b.assembly = onAssembly (feed number line b) := by
  obtain ⟨path, phase, closed, keys, properties, firstLine⟩ := b
  -- Each phase leaves only those registers open that its block has, too.
  match phase with
  | .start =>
      obtain ⟨rfl, rfl⟩ : keys = [] ∧ properties = [] := h.pending_eq_nil (Or.inl rfl)
      cases line <;> rfl
  | .header false =>
      obtain ⟨rfl, rfl⟩ : keys = [] ∧ properties = [] := h.pending_eq_nil (Or.inr rfl)
      cases line <;> rfl
  | .header true =>
      obtain rfl : properties = [] := h.properties_eq_nil (by simp)
      obtain ⟨k, ks, rfl⟩ : ∃ k ks, keys = k :: ks :=
        List.exists_cons_of_ne_nil (h.keys_ne_nil (Or.inl rfl))
      cases line <;> rfl
  | .properties => cases properties <;> cases line <;> rfl

/-- The end of the file does the same to the assembly of the registers, in any builder. No
invariant is needed here, for the end of the file looks at the block alone. -/
theorem finish_assembly (b : Builder) :
    Assembly.finish b.assembly = onAssembly (finish b) := by
  obtain ⟨path, phase, closed, keys, properties, firstLine⟩ := b
  match phase, properties with
  | .start, _ | .header false, _ | .header true, _ | .properties, [] | .properties, _ :: _ => rfl

/-- The assembly of a reached builder is reached by the same lines. So all that is known of
reached builders is known of the assemblies that reading goes through. -/
theorem reached_assembly {path : Path} {last : Nat} {b : Builder}
    (h : Reached feed (new path) last b) :
    Reached Assembly.feed (Assembly.start path) last b.assembly := by
  induction h with
  | start => exact .start
  | @step last number b b' line hreached hlt hfeed ih =>
      have hnext : Assembly.feed number line b.assembly = .ok () b'.assembly := by
        rw [(valid_of_reached hreached).feed_assembly, hfeed]
        rfl
      exact ih.step line hlt hnext

/-- Lines of a file lead from a reached builder to another one, or to one that counts the
records that were complete before the fault. The lines of a file are numbered without a gap,
which is one of the ways in which a builder can be reached. -/
theorem feedLines_assembly {path : Path} {count : Nat} {b : Builder} (ts : List Text)
    (h : Reached feed (new path) count b) :
    (∃ b', Reached feed (new path) (count + ts.length) b'
        ∧ Assembly.feedLines count ts b.assembly = .ok () b'.assembly)
      ∨ ∃ last b' e, Reached feed (new path) last b'
        ∧ Assembly.feedLines count ts b.assembly = .error e b'.assembly
        ∧ e.completeRecords = b'.closed.length := by
  induction ts generalizing count b with
  | nil => exact Or.inl ⟨b, h, rfl⟩
  | cons t ts ih =>
      rw [Assembly.feedLines_cons, (valid_of_reached h).feed_assembly]
      -- The next line is taken by both, or it has the same fault in both.
      rcases feed_cases (count + 1) (Line.ofText t) b with ⟨b', hok, -⟩ | ⟨fault, hfault⟩
      · have hnext : Reached feed (new path) (count + 1) b' := h.step _ (Nat.lt_succ_self _) hok
        rw [hok, List.length_cons, ← Nat.add_assoc, Nat.add_right_comm]
        exact ih hnext
      · rw [hfault]
        exact Or.inr ⟨count, b, _, h, rfl, rfl⟩

/-- Reading a file is a run of a builder: the records of the file are the ones that the end
of the file leaves closed, and a fault counts the ones that are closed before it. -/
theorem exists_reached_of_parse (path : Path) (t : Text) :
    ∃ last b, Reached feed (new path) last b ∧
      ((∃ b', finish b = .ok () b' ∧ last = t.lines.length
          ∧ Record.parse path t = .ok b'.closed)
        ∨ ∃ e, Record.parse path t = .error e ∧ e.completeRecords = b.closed.length) := by
  have hnew : Reached feed (new path) 0 (new path) := .start
  have hstart : Assembly.start path = (new path).assembly := rfl
  rw [Record.parse, Assembly.feedText_eq, hstart]
  -- All lines are taken and the end of the file decides, or one of them has a fault.
  rcases feedLines_assembly t.lines hnew with
    ⟨b, h, hlines⟩ | ⟨last, b, e, h, hlines, hcount⟩
  · rw [hlines]
    refine ⟨_, b, h, ?_⟩
    simp only [Assembly.located, finish_assembly]
    rcases finish_cases b with ⟨hok, -⟩ | ⟨hok, -⟩ | ⟨fault, hfault⟩
    · rw [hok]
      exact Or.inl ⟨b, rfl, Nat.zero_add _, rfl⟩
    · rw [hok]
      exact Or.inl ⟨b.closeRecord, rfl, Nat.zero_add _, rfl⟩
    · rw [hfault]
      exact Or.inr ⟨_, rfl, rfl⟩
  · rw [hlines]
    exact ⟨last, b, h, Or.inr ⟨e, rfl, hcount⟩⟩

/-- The registers are in line with the phase in every builder that lines with larger and
larger numbers lead to. A line that has a fault there, or an end of the file that has one,
leaves all registers as they are. The assembly of the registers has been reached by the same
lines, and the next line or the end of the file does the same to it. -/
theorem invariant_of_reached {path : Path} {last : Nat} {b : Builder}
    (h : Reached feed (new path) last b) :
    b.Valid last
      ∧ (b.phase = .start ∨ b.phase = .header false → b.keys = [] ∧ b.properties = [])
      ∧ (∀ number line fault b', feed number line b = .error fault b' → b' = b)
      ∧ (∀ fault b', finish b = .error fault b' → b' = b)
      ∧ (∀ b', finish b = .ok () b' → b'.Valid last)
      ∧ Reached Assembly.feed (Assembly.start path) last b.assembly
      ∧ (∀ number line,
          Assembly.feed number line b.assembly = onAssembly (feed number line b))
      ∧ Assembly.finish b.assembly = onAssembly (finish b) := by
  have hvalid := valid_of_reached h
  refine ⟨hvalid, hvalid.pending_eq_nil, ?_, ?_, ?_, reached_assembly h,
    hvalid.feed_assembly, finish_assembly b⟩
  · intro number line fault b' hfeed
    exact eq_of_feed_eq_error hfeed
  · intro fault b' hfinish
    exact eq_of_finish_eq_error hfinish
  · intro b' hfinish
    exact hvalid.finish hfinish

/-- A second record is in hand, and its first match key is on the fifth line. It cannot have
a match key after its property. -/
theorem invariant_in_second_record :
    ∃ b : Builder, Reached feed (new ⟨[]⟩) 7 b ∧ b.Valid 7
      ∧ b.lineNumbers = [2, 3, 5, 7] ∧ b.firstLine = 5
      ∧ b.closed.map Record.line = [2]
      ∧ feed 8 (.key ⟨.libinput, .name, ['c']⟩) b
          = .error (.missingSeparator "libinput:name:c".toList) b
      ∧ Assembly.feed 8 (.key ⟨.libinput, .name, ['c']⟩) b.assembly
          = .error (.missingSeparator "libinput:name:c".toList) b.assembly := by
  have h₁ : Reached feed (new ⟨[]⟩) 1 _ := Reached.start.step .comment (by decide) rfl
  have h₂ : Reached feed (new ⟨[]⟩) 2 _ :=
    h₁.step (.key ⟨.libinput, .name, ['a']⟩) (by decide) rfl
  have h₃ : Reached feed (new ⟨[]⟩) 3 _ :=
    h₂.step (.property ⟨['A'], ['1'], none⟩) (by decide) rfl
  have h₄ : Reached feed (new ⟨[]⟩) 4 _ := h₃.step .blank (by decide) rfl
  have h₅ : Reached feed (new ⟨[]⟩) 5 _ :=
    h₄.step (.key ⟨.libinput, .name, ['b']⟩) (by decide) rfl
  have h₆ : Reached feed (new ⟨[]⟩) 6 _ := h₅.step .indentedComment (by decide) rfl
  have h₇ : Reached feed (new ⟨[]⟩) 7 _ :=
    h₆.step (.property ⟨['A'], ['2'], none⟩) (by decide) rfl
  obtain ⟨hvalid, -, -, -, -, -, hfeed, -⟩ := invariant_of_reached h₇
  exact ⟨_, h₇, hvalid, rfl, rfl, rfl, rfl, hfeed 8 (.key ⟨.libinput, .name, ['c']⟩)⟩

end Builder

end Hwdb
