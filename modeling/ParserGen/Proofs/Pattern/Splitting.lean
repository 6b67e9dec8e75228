import Mathlib.Algebra.Ring.Nat
import Mathlib.Computability.StateTransition
import ParserGen.Proofs.Pattern.Language
import ParserGen.Proofs.Pattern.Slices

/-!
# Operands are split off whole

Atoms are compiled without building an expression first.  A round splits one operand off what is
left of them, compiles it, which for a group begins anew with the atoms inside, and takes the stars
after it; the operands are joined from the last one when no atoms are left.  If the parentheses
balance, they balance in all slices that are cut out on the way, no slice ends before it begins, and
no parenthesis is taken for a character.

* `Compilation`, `Compilation.step`: the compiler, with the rounds that wait for an operand;
* `Compilation.reaches_value`: it ends, with the fragment of the regular expression;
* `Compilation.Sound`, `Compilation.Sound.of_step`: what a step preserves if the parentheses
  balance;
* `Compilation.remaining`: the atoms that are left, of which each round leaves fewer to the next;
* `Compilation.safe_of_balanced`.
-/

namespace ParserGen

open StateTransition (Reaches Reaches₁ eval mem_eval)

namespace Compilation

/-- An operand that waits for what comes after it, and whether a bar joins the two. -/
structure Link where
  operand : Fragment
  bar : Bool

namespace Link

/-- Join an operand with what comes after it. -/
def join (link : Link) (rest : Fragment) : Fragment :=
  if link.bar then link.operand.union rest else link.operand.concat rest

/-- Join operands from the last one. -/
def joinAll (chain : List Link) (last : Fragment) : Fragment :=
  chain.reverse.foldl (fun rest link => link.join rest) last

theorem joinAll_concat (chain : List Link) (link : Link) (last : Fragment) :
    joinAll (chain ++ [link]) last = joinAll chain (link.join last) := by
  simp [joinAll]

end Link

/-- What the compiler is about to do. -/
inductive Stage
  /-- Begin a round with the atoms that are left. -/
  | round (chain : List Link) (rest : List Atom)
  /-- Compile the atoms of an operand. -/
  | operand (slice : List Atom)
  /-- Take the stars after an operand. -/
  | stars (chain : List Link) (operand : Fragment) (rest : List Atom)
  /-- Return a fragment to the round that waits for it. -/
  | value (f : Fragment)
  /-- Give up. -/
  | failed (e : SliceError)

namespace Stage

/-- The atoms that a stage works on. -/
def slices : Stage → List (List Atom)
  | .round _ rest => [rest]
  | .operand slice => [slice]
  | .stars _ _ rest => [rest]
  | .value _ => []
  | .failed _ => []

/-- What is to be compiled as an operand is one, and atoms that are left balance. -/
def Sound : Stage → Prop
  | .round _ rest => Atom.balanced rest = true
  | .operand slice => Atom.IsOperand slice
  | .stars _ _ rest => Atom.balanced rest = true
  | .value _ => True
  | .failed _ => False

end Stage

/-- A round that waits for its operand, with the atoms after it. -/
structure Round where
  chain : List Link
  rest : List Atom

end Compilation

/-- The compiler between two steps. -/
structure Compilation where
  stage : Compilation.Stage
  /-- The rounds that wait for an operand, the last one first. -/
  waiting : List Compilation.Round

namespace Compilation

/-- The compiler before its first round. -/
def start (xs : List Atom) : Compilation := ⟨.round [] xs, []⟩

/-- One step, unless all atoms are compiled or a slice could not be cut. -/
def step (c : Compilation) : Option Compilation :=
  match c.stage with
  | .round chain [] => some ⟨.value (Link.joinAll chain .empty), c.waiting⟩
  | .round chain (a :: xs) =>
    match Atom.splitFirst (a :: xs) with
    | .ok (slice, after) => some ⟨.operand slice, ⟨chain, after⟩ :: c.waiting⟩
    | .error e => some ⟨.failed e, c.waiting⟩
  | .operand [a] => some ⟨.value (.symbol a.toChar), c.waiting⟩
  | .operand slice =>
    match Atom.interior slice with
    | .ok inner => some ⟨.round [] inner, c.waiting⟩
    | .error e => some ⟨.failed e, c.waiting⟩
  | .stars chain operand (.star :: rest) => some ⟨.stars chain operand.star rest, c.waiting⟩
  | .stars chain operand [] => some ⟨.value (Link.joinAll chain operand), c.waiting⟩
  | .stars chain operand (.bar :: rest) =>
    some ⟨.round (chain ++ [⟨operand, true⟩]) rest, c.waiting⟩
  | .stars chain operand rest => some ⟨.round (chain ++ [⟨operand, false⟩]) rest, c.waiting⟩
  | .value f =>
    match c.waiting with
    | [] => none
    | r :: waiting => some ⟨.stars r.chain f r.rest, waiting⟩
  | .failed _ => none

variable {c c' : Compilation} {chain chain' : List Link} {a : Atom}
  {xs rest rest' after slice : List Atom} {waiting : List Round} {f : Fragment}

/-! ### It ends with the fragment -/

theorem reaches_head {c'' : Compilation} (h : c.step = some c') (h' : Reaches step c' c'') :
    Reaches step c c'' :=
  Relation.ReflTransGen.head h h'

theorem stars_star (e : Regex) (n : Nat) : e.star.stars n = (e.stars n).star := by
  induction n with
  | zero => rfl
  | succ n ih => rw [Regex.stars, ih, Regex.stars]

theorem head?_dropWhile_ne (xs : List Atom) : (xs.dropWhile (· = .star)).head? ≠ some .star := by
  intro h
  simpa [h] using List.head?_dropWhile_not (· = Atom.star) xs

/-- All stars after an operand are taken. -/
theorem reaches_stars (chain : List Link) (e : Regex) (after : List Atom) (waiting : List Round) :
    Reaches step ⟨.stars chain e.fragment after, waiting⟩
      ⟨.stars chain (e.stars (after.takeWhile (· = .star)).length).fragment
        (after.dropWhile (· = .star)), waiting⟩ := by
  induction after generalizing e with
  | nil => exact .refl
  | cons a after ih =>
    by_cases ha : a = .star
    · subst ha
      have hstep : step ⟨.stars chain e.fragment (.star :: after), waiting⟩ =
          some ⟨.stars chain e.star.fragment after, waiting⟩ := rfl
      refine reaches_head hstep ?_
      simpa [Regex.stars, stars_star] using ih e.star
    · rw [List.takeWhile_cons_of_neg (by simpa using ha),
        List.dropWhile_cons_of_neg (by simpa using ha)]
      exact .refl

theorem step_operand (h : slice.length ≠ 1) : step ⟨.operand slice, waiting⟩ =
    match Atom.interior slice with
    | .ok inner => some ⟨.round [] inner, waiting⟩
    | .error e => some ⟨.failed e, waiting⟩ := by
  match slice with
  | [] => rfl
  | [a] => exact absurd rfl h
  | a :: b :: slice => rfl

/-- An operand is compiled: an atom at once, a group by rounds of its own. -/
theorem reaches_operand {operand : Operand} (hgroup : ∀ inner, operand = .group inner →
      Reaches step ⟨.round [] inner, waiting⟩ ⟨.value (Regex.ofAtoms inner).fragment, waiting⟩) :
    Reaches step ⟨.operand operand.slice, waiting⟩
      ⟨.value (Regex.ofOperand operand).fragment, waiting⟩ := by
  cases operand with
  | single a => exact .single rfl
  | group inner =>
    have hstep : step ⟨.operand (Operand.slice (.group inner)), waiting⟩ =
        some ⟨.round [] inner, waiting⟩ := by
      rw [Operand.slice, step_operand (by simp), Atom.interior_group]
    exact reaches_head hstep (hgroup inner rfl)

/-- What is left after an operand and its stars is joined to it, after rounds of its own. -/
theorem reaches_followedBy (chain : List Link) (e : Regex) (waiting : List Round)
    (hstar : rest.head? ≠ some .star)
    (hround : ∀ chain' rest', rest'.length ≤ rest.length →
      Reaches step ⟨.round chain' rest', waiting⟩
      ⟨.value (Link.joinAll chain' (Regex.ofAtoms rest').fragment), waiting⟩) :
    Reaches step ⟨.stars chain e.fragment rest, waiting⟩
      ⟨.value (Link.joinAll chain (e.followedBy rest).fragment), waiting⟩ := by
  cases rest with
  | nil => exact .single rfl
  | cons b rest =>
    cases b with
    | star => exact absurd rfl hstar
    | bar =>
      have hrest := hround (chain ++ [⟨e.fragment, true⟩]) rest (Nat.le_succ _)
      rw [Link.joinAll_concat] at hrest
      exact reaches_head rfl hrest
    | literal | opening | closing =>
      have hrest := hround (chain ++ [⟨e.fragment, false⟩]) _ (Nat.le_refl _)
      rw [Link.joinAll_concat] at hrest
      exact reaches_head rfl hrest

/-- Rounds end, with what the regular expression of their atoms makes of the operands before. -/
theorem reaches_value (chain : List Link) (rest : List Atom) (waiting : List Round) :
    Reaches step ⟨.round chain rest, waiting⟩
      ⟨.value (Link.joinAll chain (Regex.ofAtoms rest).fragment), waiting⟩ := by
  -- Both the atoms inside a group and those after an operand are fewer, so the induction is on
  -- their number.
  induction hn : rest.length using Nat.strong_induction_on generalizing chain rest waiting with
  | h n ih =>
    cases rest with
    | nil =>
      rw [Regex.ofAtoms]
      exact .single rfl
    | cons a xs =>
      rw [List.length_cons] at hn
      cases hsplit : splitOperand a xs with
      | mk operand after =>
        have hafter : (after.dropWhile (· = Atom.star)).length ≤ xs.length := by
          have hle := length_snd_splitOperand_le a xs
          rw [hsplit] at hle
          exact ((List.dropWhile_sublist _).length_le).trans hle
        have hsplitFirst : step ⟨.round chain (a :: xs), waiting⟩ =
            some ⟨.operand operand.slice, ⟨chain, after⟩ :: waiting⟩ := by
          simp only [step, Atom.splitFirst_cons hsplit]
        have hoperand : Reaches step ⟨.operand operand.slice, ⟨chain, after⟩ :: waiting⟩
            ⟨.value (Regex.ofOperand operand).fragment, ⟨chain, after⟩ :: waiting⟩ := by
          refine reaches_operand fun inner hinner => ?_
          subst hinner
          have hinner := length_le_of_splitOperand hsplit
          exact ih inner.length (by omega) [] inner _ rfl
        have hreturn : step ⟨.value (Regex.ofOperand operand).fragment, ⟨chain, after⟩ :: waiting⟩ =
            some ⟨.stars chain (Regex.ofOperand operand).fragment after, waiting⟩ := rfl
        have hfollowed := reaches_followedBy chain
          ((Regex.ofOperand operand).stars (after.takeWhile (· = .star)).length) waiting
          (head?_dropWhile_ne after) fun chain' rest' hrest' =>
            ih rest'.length (by omega) chain' rest' waiting rfl
        rw [Regex.ofAtoms_of_splitOperand hsplit]
        exact reaches_head hsplitFirst
          (hoperand.trans (reaches_head hreturn ((reaches_stars _ _ _ _).trans hfollowed)))

/-! ### What it handles -/

/-- The slices that the compiler works on now or later. -/
def slices (c : Compilation) : List (List Atom) := c.stage.slices ++ c.waiting.map Round.rest

/-- The number of atoms that are left. -/
def remaining (c : Compilation) : Nat := (c.slices.map List.length).sum

/-- All slices are right for what is done with them. -/
structure Sound (c : Compilation) : Prop where
  stage : c.stage.Sound
  waiting : ∀ r ∈ c.waiting, Atom.balanced r.rest = true

theorem sound_start (h : Atom.balanced xs = true) : (start xs).Sound := ⟨h, fun r hr => by cases hr⟩

theorem Sound.balanced (h : c.Sound) : ∀ slice ∈ c.slices, Atom.balanced slice = true := by
  obtain ⟨stage, waiting⟩ := c
  obtain ⟨hstage, hwaiting⟩ := h
  intro slice hslice
  rcases List.mem_append.1 hslice with hslice | hslice
  · cases stage with
    | round | stars =>
      obtain rfl := List.mem_singleton.1 hslice
      exact hstage
    | operand =>
      obtain rfl := List.mem_singleton.1 hslice
      exact Atom.balanced_of_isOperand hstage
    | value | failed => cases hslice
  · obtain ⟨r, hr, rfl⟩ := List.mem_map.1 hslice
    exact hwaiting r hr

/-- What one step preserves.  No step adds atoms to those that are left, and compiling an operand
takes some of them away. -/
theorem Sound.of_step (h : c.Sound) (hstep : c.step = some c') :
    c'.Sound ∧ c'.remaining ≤ c.remaining ∧
    ∀ slice, c.stage = .operand slice → c'.remaining < c.remaining := by
  obtain ⟨stage, waiting⟩ := c
  obtain ⟨hstage, hwaiting⟩ := h
  cases stage with
  | round chain rest =>
    cases rest with
    | nil =>
      obtain rfl := Option.some.inj hstep
      refine ⟨⟨trivial, hwaiting⟩, ?_, fun slice hslice => by cases hslice⟩
      simp [remaining, slices, Stage.slices]
    | cons a xs =>
      obtain ⟨slice, after, hsplit, hatoms, hoperand, hafter⟩ := Atom.exists_splitFirst hstage
      simp only [step, hsplit, Option.some.injEq] at hstep
      subst hstep
      refine ⟨⟨hoperand, List.forall_mem_cons.2 ⟨hafter, hwaiting⟩⟩, ?_,
        fun slice hslice => by cases hslice⟩
      simp [remaining, slices, Stage.slices, hatoms, Nat.add_assoc]
  | operand slice =>
    cases hstage with
    | @single a hopening hclosing =>
      obtain rfl := Option.some.inj hstep
      have hless : remaining ⟨.value (.symbol a.toChar), waiting⟩ <
          remaining ⟨.operand [a], waiting⟩ := by
        simp [remaining, slices, Stage.slices]
      exact ⟨⟨trivial, hwaiting⟩, hless.le, fun _ _ => hless⟩
    | @group inner hinner =>
      rw [step_operand (by simp), Atom.interior_group] at hstep
      obtain rfl := Option.some.inj hstep
      have hless : remaining ⟨.round [] inner, waiting⟩ <
          remaining ⟨.operand (.opening :: (inner ++ [.closing])), waiting⟩ := by
        simp only [remaining, slices, Stage.slices, List.map_append, List.map_cons, List.map_nil,
          List.length_cons, List.length_append, List.sum_append, List.sum_cons]
        omega
      exact ⟨⟨hinner, hwaiting⟩, hless.le, fun _ _ => hless⟩
  | stars chain operand rest =>
    cases rest with
    | nil =>
      obtain rfl := Option.some.inj hstep
      refine ⟨⟨trivial, hwaiting⟩, ?_, fun slice hslice => by cases hslice⟩
      simp [remaining, slices, Stage.slices]
    | cons b rest =>
      cases b with
      | star | bar =>
        obtain rfl := Option.some.inj hstep
        have hrest : Atom.balanced rest = true := by simpa [Stage.Sound, Atom.balanced] using hstage
        refine ⟨⟨hrest, hwaiting⟩, ?_, fun slice hslice => by cases hslice⟩
        simp [remaining, slices, Stage.slices]
      | literal | opening | closing =>
        obtain rfl := Option.some.inj hstep
        exact ⟨⟨hstage, hwaiting⟩, Nat.le_refl _, fun slice hslice => by cases hslice⟩
  | value f =>
    cases waiting with
    | nil => cases hstep
    | cons r waiting =>
      obtain rfl := Option.some.inj hstep
      obtain ⟨hr, hwaiting⟩ := List.forall_mem_cons.1 hwaiting
      refine ⟨⟨hr, hwaiting⟩, ?_, fun slice hslice => by cases hslice⟩
      simp [remaining, slices, Stage.slices]
  | failed e => cases hstage

/-- What a run preserves. -/
theorem Sound.of_reaches (h : c.Sound) (hreach : Reaches step c c') :
    c'.Sound ∧ c'.remaining ≤ c.remaining := by
  induction hreach with
  | refl => exact ⟨h, Nat.le_refl _⟩
  | tail _ hstep ih =>
    obtain ⟨hsound, hle, -⟩ := ih.1.of_step hstep
    exact ⟨hsound, hle.trans ih.2⟩

/-- Between two rounds an operand was compiled, so that fewer atoms are left. -/
theorem Sound.remaining_lt (h : Sound ⟨.round chain (a :: xs), waiting⟩) {waiting' : List Round}
    (hreach : Reaches₁ step ⟨.round chain (a :: xs), waiting⟩ ⟨.round chain' rest', waiting'⟩) :
    remaining ⟨.round chain' rest', waiting'⟩ < remaining ⟨.round chain (a :: xs), waiting⟩ := by
  -- The first step only hands over an operand; the second one compiles it and takes its atoms away.
  obtain ⟨next, hstep, hreach⟩ := Relation.TransGen.head'_iff.1 hreach
  obtain ⟨hnext, hle, -⟩ := h.of_step hstep
  obtain ⟨slice, hslice⟩ : ∃ slice, next.stage = .operand slice := by
    obtain ⟨slice, after, hsplit, -⟩ := Atom.exists_splitFirst h.stage
    simp only [Option.mem_def, step, hsplit, Option.some.injEq] at hstep
    exact ⟨slice, by rw [← hstep]⟩
  rcases Relation.ReflTransGen.cases_head hreach with rfl | ⟨third, hstep, hreach⟩
  · cases hslice
  · obtain ⟨hthird, -, hless⟩ := hnext.of_step hstep
    calc remaining ⟨.round chain' rest', waiting'⟩
        ≤ third.remaining := (hthird.of_reaches hreach).2
      _ < next.remaining := hless slice hslice
      _ ≤ remaining ⟨.round chain (a :: xs), waiting⟩ := hle

/-- If parentheses balance, the first group is closed where the count says, and nowhere else, and
the atoms inside it and after it balance.  The compiler works on slices that balance only and cuts
them without error, an operand of more than one atom has its two parentheses, and no parenthesis is
compiled as a character.  Each round leaves fewer atoms to the next one, and the last one ends with
the fragment of the regular expression. -/
theorem safe_of_balanced (h : Atom.balanced xs = true) :
    (xs.head? = some .opening → ∃ i, Atom.matchingClose? xs = .ok (some i) ∧
      Atom.ClosedAt xs i ∧ (∀ j, Atom.ClosedAt xs j → j = i) ∧
      Atom.balanced ((xs.take i).drop 1) = true ∧ Atom.balanced (xs.drop (i + 1)) = true) ∧
    (∀ c, Reaches step (start xs) c →
      (∀ slice ∈ c.slices, Atom.balanced slice = true) ∧
      (∀ e, c.stage ≠ .failed e) ∧
      (∀ slice, c.stage = .operand slice → slice.length ≠ 1 → 2 ≤ slice.length) ∧
      (∀ a, c.stage = .operand [a] → a ≠ .opening ∧ a ≠ .closing) ∧
      (∀ chain rest, c.stage = .round chain rest → rest ≠ [] → ∀ chain' rest',
        Reaches₁ step c ⟨.round chain' rest', c.waiting⟩ → rest'.length < rest.length)) ∧
    eval step (start xs) = Part.some ⟨.value (Regex.ofAtoms xs).fragment, []⟩ := by
  refine ⟨fun hopening => ?_, fun c hreach => ?_, ?_⟩
  · obtain ⟨xs, rfl⟩ := List.head?_eq_some_iff.1 hopening
    obtain ⟨inner, after, rfl, hinner, hafter, hclose⟩ := Atom.exists_matchingClose? h
    have hclosed := Atom.closedAt_append hinner after
    refine ⟨inner.length + 1, hclose, hclosed, fun j hj => hj.unique hclosed, ?_, ?_⟩
    · simpa using hinner
    · simpa using hafter
  · have hsound := ((sound_start h).of_reaches hreach).1
    refine ⟨hsound.balanced, fun e he => ?_, fun slice hslice hlength => ?_, fun a ha => ?_,
      fun chain rest hround hrest chain' rest' hnext => ?_⟩
    · have hstage := hsound.stage
      rw [he] at hstage
      exact hstage
    · have hstage := hsound.stage
      rw [hslice] at hstage
      cases hstage with
      | single => exact absurd rfl hlength
      | group => simp
    · have hstage := hsound.stage
      rw [ha] at hstage
      exact Atom.ne_of_isOperand_single hstage
    · obtain ⟨stage, waiting⟩ := c
      obtain rfl : stage = .round chain rest := hround
      obtain ⟨a, xs, rfl⟩ := List.exists_cons_of_ne_nil hrest
      have hless := hsound.remaining_lt hnext
      simp only [remaining, slices, Stage.slices] at hless
      simpa using hless
  · exact Part.eq_some_iff.2 (mem_eval.2 ⟨reaches_value [] xs [], rfl⟩)

/-- A group in a group, a parenthesis that is escaped, and more after the group. -/
def nestedGroup : List Atom :=
  [.opening, .opening, .literal 'a', .closing, .bar, .literal '(', .closing, .star, .literal 'b']

theorem safe_nestedGroup : Atom.balanced nestedGroup = true ∧
    Atom.matchingClose? nestedGroup = .ok (some 6) ∧ Atom.ClosedAt nestedGroup 6 ∧
    (∀ j, Atom.ClosedAt nestedGroup j → j = 6) ∧
    (∀ c, Reaches step (start nestedGroup) c →
      (∀ slice ∈ c.slices, Atom.balanced slice = true) ∧ (∀ e, c.stage ≠ .failed e) ∧
      ∀ a, c.stage = .operand [a] → a ≠ .opening ∧ a ≠ .closing) ∧
    eval step (start nestedGroup) = Part.some
      ⟨.value (Regex.concat (.star (.union (.char 'a') (.char '('))) (.char 'b')).fragment,
        []⟩ := by
  have hbalanced : Atom.balanced nestedGroup = true := by decide
  have hregex : Regex.ofAtoms nestedGroup =
      .concat (.star (.union (.char 'a') (.char '('))) (.char 'b') := by decide +kernel
  obtain ⟨hclose, hsafe, heval⟩ := safe_of_balanced hbalanced
  obtain ⟨i, hi, hclosed, hunique, -⟩ := hclose rfl
  obtain rfl : 6 = i := by
    have hsix : Atom.matchingClose? nestedGroup = .ok (some 6) := rfl
    exact Option.some.inj (Except.ok.inj (hsix.symm.trans hi))
  refine ⟨hbalanced, hi, hclosed, hunique, fun c hreach => ?_, hregex ▸ heval⟩
  obtain ⟨hslices, hfailed, -, hliteral, -⟩ := hsafe c hreach
  exact ⟨hslices, hfailed, hliteral⟩

end Compilation

end ParserGen
