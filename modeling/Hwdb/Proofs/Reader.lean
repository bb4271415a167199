import Mathlib.Data.List.Basic
import Mathlib.Data.List.TakeWhile
import Hwdb.Reader

/-!
# `Hwdb.Proofs.Reader`: what the pieces of a reader accept

Each piece gets one equivalence: it reads a value and leaves a rest exactly if the text is
the written form of the value followed by that rest. A run of characters is read as far as
it goes, so its rest must not go on with a character of the class. `Stops` says this.

`bind_eq_ok_iff` chains the pieces. A spelling is found by `oneOf` exactly if no spelling
in its list is the beginning of another one, which is what `oneOf_eq_ok_iff` asks for.
-/

set_option autoImplicit false

namespace Hwdb.Reader

variable {α β : Type}

/-- The text does not begin with a character of the class. -/
def Stops (p : Char → Bool) (rest : Text) : Prop :=
  ∀ c ∈ rest.head?, p c = false

/-- At the end of a text every run stops. A whole line that is read to its end has this for
its rest. -/
@[simp]
theorem stops_nil (p : Char → Bool) : Stops p [] := by
  simp [Stops]

/-- A text that goes on stops a run if its first character is not of the class. The rest of
the text has no say in it. -/
@[simp]
theorem stops_cons {p : Char → Bool} {c : Char} {rest : Text} :
    Stops p (c :: rest) ↔ p c = false := by
  simp [Stops]

/-- A run in front of a text that stops it is the longest one, so it is found by `takeWhile`
again. -/
theorem takeWhile_append_of_stops {p : Char → Bool} {s rest : Text}
    (hs : ∀ c ∈ s, p c = true) (hrest : Stops p rest) :
    (s ++ rest).takeWhile p = s := by
  rw [List.takeWhile_append_of_pos hs]
  cases rest with
  | nil => simp
  | cons c rest => simp [stops_cons.1 hrest]

/-- What is left after the longest run is the text that stops it. It is the other half of
`takeWhile_append_of_stops`. -/
theorem dropWhile_append_of_stops {p : Char → Bool} {s rest : Text}
    (hs : ∀ c ∈ s, p c = true) (hrest : Stops p rest) :
    (s ++ rest).dropWhile p = rest := by
  rw [List.dropWhile_append_of_pos hs]
  cases rest with
  | nil => simp
  | cons c rest => simp [stops_cons.1 hrest]

/-- What is left after the longest run does not go on with it: otherwise the run would have
been longer. At the end of the text there is nothing left to go on with. -/
theorem stops_dropWhile (p : Char → Bool) (t : Text) : Stops p (t.dropWhile p) := by
  intro c hc
  have h := List.head?_dropWhile_not p t
  rw [Option.mem_def.1 hc] at h
  exact h

/-- The longest run and what is left are the only way to cut a text into a run of the class
and a rest that stops it. This is maximal munch as an equation between texts, and the
equivalences for the pieces follow from it. -/
theorem takeWhile_dropWhile_iff {p : Char → Bool} {t s rest : Text} :
    t.takeWhile p = s ∧ t.dropWhile p = rest
      ↔ t = s ++ rest ∧ (∀ c ∈ s, p c = true) ∧ Stops p rest := by
  constructor
  · rintro ⟨rfl, rfl⟩
    exact ⟨List.takeWhile_append_dropWhile.symm, fun c hc => List.mem_takeWhile_imp hc,
      stops_dropWhile p t⟩
  · rintro ⟨rfl, hs, hrest⟩
    exact ⟨takeWhile_append_of_stops hs hrest, dropWhile_append_of_stops hs hrest⟩

/-! ### Chaining -/

/-- Two readers in a row: the second one begins where the first one stopped, and the text
between them is bound by the existential. Every reader of a line is taken apart with
this. -/
theorem bind_eq_ok_iff {r : Reader α} {f : α → Reader β} {t rest : Text} {b : β} :
    (r >>= f) t = .ok (b, rest)
      ↔ ∃ a between, r t = .ok (a, between) ∧ f a between = .ok (b, rest) := by
  change (r t >>= fun x => f x.1 x.2) = _ ↔ _
  cases r t with
  | error e =>
      constructor
      · intro h
        cases h
      · rintro ⟨a, between, h, -⟩
        cases h
  | ok x =>
      constructor
      · intro h
        exact ⟨x.1, x.2, rfl, h⟩
      · rintro ⟨a, between, h, hf⟩
        cases h
        exact hf

/-- A reader whose value is not used leaves the same rest as before, and fails where it
failed before. The value is there for those that want it. -/
theorem discard_eq_ok_iff {r : Reader α} {t rest : Text} {u : Unit} :
    (discard r) t = .ok (u, rest) ↔ ∃ a, r t = .ok (a, rest) := by
  change (r t >>= fun x => pure ((), x.2)) = _ ↔ _
  cases r t with
  | error e =>
      constructor
      · intro h
        cases h
      · rintro ⟨a, h⟩
        cases h
  | ok x =>
      constructor
      · intro h
        cases h
        exact ⟨x.1, rfl⟩
      · rintro ⟨a, h⟩
        cases h
        rfl

/-- A reader that takes nothing off the text: it succeeds everywhere, with its own value and
the whole text as its rest. -/
theorem pure_eq_ok_iff {a b : α} {t rest : Text} :
    (pure a : Reader α) t = .ok (b, rest) ↔ a = b ∧ t = rest := by
  change Except.ok (a, t) = _ ↔ _
  rw [Except.ok.injEq, Prod.mk.injEq]

/-! ### The pieces -/

/-- One character of a class. The class is all that decides, so the characters a tag may
begin with are read off the test. -/
theorem satisfying_eq_ok_iff {e : Expected} {p : Char → Bool} {t rest : Text} {c : Char} :
    satisfying e p t = .ok (c, rest) ↔ t = c :: rest ∧ p c = true := by
  cases t with
  | nil => simp [satisfying]
  | cons d t =>
      by_cases hd : p d = true
      · simp only [satisfying, hd, if_true, Except.ok.injEq, Prod.mk.injEq, List.cons.injEq]
        constructor
        · rintro ⟨rfl, rfl⟩
          exact ⟨⟨rfl, rfl⟩, hd⟩
        · exact And.left
      · simp only [satisfying, hd, if_false, List.cons.injEq, reduceCtorEq, false_iff]
        rintro ⟨⟨rfl, -⟩, hc⟩
        exact hd hc

/-- A run of characters, which may be empty. It never fails, and the value and the rest are
the two parts of the only cut there is. -/
theorem takeWhile_eq_ok_iff {p : Char → Bool} {t s rest : Text} :
    takeWhile p t = .ok (s, rest)
      ↔ t = s ++ rest ∧ (∀ c ∈ s, p c = true) ∧ Stops p rest := by
  rw [takeWhile_eq_ok, Except.ok.injEq, Prod.mk.injEq, takeWhile_dropWhile_iff]

/-- A run of at least one character. An empty run is the one cut that `takeWhile` accepts
and this reader does not. -/
theorem takeWhile1_eq_ok_iff {e : Expected} {p : Char → Bool} {t s rest : Text} :
    takeWhile1 e p t = .ok (s, rest)
      ↔ t = s ++ rest ∧ s ≠ [] ∧ (∀ c ∈ s, p c = true) ∧ Stops p rest := by
  have hcut : t.takeWhile p = s ∧ t.dropWhile p = rest ↔ _ := takeWhile_dropWhile_iff
  unfold takeWhile1
  -- The longest run is empty, or it is what is read.
  split
  · next hnil =>
      rw [hnil] at hcut
      constructor
      · intro h
        cases h
      · rintro ⟨ht, hne, hs⟩
        exact absurd (hcut.2 ⟨ht, hs⟩).1.symm hne
  · next hne =>
      rw [Except.ok.injEq, Prod.mk.injEq, hcut]
      constructor
      · rintro ⟨ht, hs⟩
        exact ⟨ht, (hcut.2 ⟨ht, hs⟩).1 ▸ hne, hs⟩
      · rintro ⟨ht, -, hs⟩
        exact ⟨ht, hs⟩

/-- All that is left: nothing stands after it. It may be empty, and it never fails. -/
theorem remaining_eq_ok_iff {t s rest : Text} :
    remaining t = .ok (s, rest) ↔ t = s ∧ rest = [] := by
  rw [remaining, Except.ok.injEq, Prod.mk.injEq, eq_comm (a := ([] : Text))]

/-- A comment is a `#` and all that follows it, so nothing can stand after a comment either,
and its text may hold any character. -/
theorem comment_eq_ok_iff {t s rest : Text} :
    comment t = .ok (s, rest) ↔ t = '#' :: s ∧ rest = [] := by
  simp only [comment, bind_eq_ok_iff, char_eq_ok_iff, remaining_eq_ok_iff]
  constructor
  · rintro ⟨⟨⟩, _, rfl, rfl, rfl⟩
    exact ⟨rfl, rfl⟩
  · rintro ⟨rfl, rfl⟩
    exact ⟨(), s, rfl, rfl, rfl⟩

/-- Something that may stand there. It is left out only where it cannot be read at all: an
optional reader never skips what it could take. -/
theorem optional_eq_ok_iff {r : Reader α} {t rest : Text} {found : Option α} :
    optional r t = .ok (found, rest)
      ↔ (∃ a, found = some a ∧ r t = .ok (a, rest))
        ∨ (found = none ∧ t = rest ∧ ∀ a rest', r t ≠ .ok (a, rest')) := by
  unfold optional
  -- Whether the reader succeeds here decides between the two sides.
  cases hr : r t with
  | error e => simp [eq_comm]
  | ok x =>
      simp only [Except.ok.injEq, Prod.mk.injEq]
      constructor
      · rintro ⟨rfl, rfl⟩
        exact Or.inl ⟨x.1, rfl, rfl⟩
      · rintro (⟨a, rfl, rfl⟩ | ⟨-, -, hno⟩)
        · exact ⟨rfl, rfl⟩
        · exact absurd rfl (hno x.1 x.2)

/-- No spelling in the list is the beginning of another one. -/
def PrefixFree (spelling : α → Text) (items : List α) : Prop :=
  ∀ a ∈ items, ∀ b ∈ items, spelling a <+: spelling b → a = b

/-- One spelling of a list. The search takes the first one that fits, and as no spelling
begins another one there is no choice: the item is the one whose spelling the text begins
with. Without `PrefixFree` an item further down the list could be hidden. -/
theorem oneOf_eq_ok_iff {e : Expected} {spelling : α → Text} {items : List α}
    (hfree : PrefixFree spelling items) {t rest : Text} {a : α} :
    oneOf e spelling items t = .ok (a, rest) ↔ a ∈ items ∧ t = spelling a ++ rest := by
  -- The search gives the first spelling that fits, which is the only one that fits.
  have hfound : (items.findSome? fun b => (spelling b).isPrefixOf? t |>.map (b, ·))
        = some (a, rest) ↔ a ∈ items ∧ t = spelling a ++ rest := by
    constructor
    · intro h
      obtain ⟨b, hb, hfit⟩ := List.exists_of_findSome?_eq_some h
      obtain ⟨rest', hrest', heq⟩ := Option.map_eq_some_iff.1 hfit
      cases heq
      exact ⟨hb, (List.isPrefixOf?_eq_some_iff_append_eq.1 hrest').symm⟩
    · rintro ⟨ha, ht⟩
      have hsome : (items.findSome? fun b =>
          (spelling b).isPrefixOf? t |>.map (b, ·)).isSome = true := by
        rw [List.findSome?_isSome_iff]
        exact ⟨a, ha, by simp [List.isPrefixOf?_eq_some_iff_append_eq.2 ht.symm]⟩
      obtain ⟨⟨b, rest'⟩, hb⟩ := Option.isSome_iff_exists.1 hsome
      obtain ⟨b', hb', hfit⟩ := List.exists_of_findSome?_eq_some hb
      obtain ⟨rest'', hrest'', heq⟩ := Option.map_eq_some_iff.1 hfit
      cases heq
      have htb := (List.isPrefixOf?_eq_some_iff_append_eq.1 hrest'').symm
      have hab : a = b := by
        have hpa : spelling a <+: t := ⟨rest, ht.symm⟩
        have hpb : spelling b <+: t := ⟨rest', htb.symm⟩
        rcases List.prefix_or_prefix_of_prefix hpa hpb with h | h
        · exact hfree a ha b hb' h
        · exact (hfree b hb' a ha h).symm
      subst hab
      rw [hb, List.append_cancel_left (ht.symm.trans htb)]
  rw [← hfound]
  unfold oneOf
  split
  · next found hf => rw [hf, Except.ok.injEq, Option.some.injEq]
  · next hf => rw [hf]; simp

end Hwdb.Reader
