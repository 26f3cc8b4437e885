import Mathlib.Data.List.Induction
import ReadonlyLint.Scope

/-!
The meaning of a name, told from the history of a scope. A binding belongs to a level, the depth at
which it was made, and it is open as long as the depth does not fall below that level
(`Scope.OpenBinding`). A name means its newest open binding at the highest level, or else the newest
parameter of that name (`Scope.Means`). A bracketed piece of history between an `enter` and its
`exit` leaves no trace.
-/
namespace ReadonlyLint

namespace Scope

/-! ## Histories -/

/-- A step in the life of a scope. -/
inductive Step where
  | enter
  | exit
  | declare (name : String) (kind : LocalKind)
  | param (p : Parameter)
  deriving DecidableEq

def step (s : Scope) : Step → Scope
  | .enter => s.enter
  | .exit => s.exit
  | .declare name kind => s.declare name kind
  | .param p => s.addParam p

/-- The scope after steps, the first one first. -/
def run (s : Scope) (steps : List Step) : Scope := steps.foldl step s

@[simp] theorem run_nil (s : Scope) : s.run [] = s := rfl

@[simp] theorem run_cons (s : Scope) (x : Step) (steps : List Step) :
    s.run (x :: steps) = (s.step x).run steps := rfl

@[simp] theorem run_append (s : Scope) (steps more : List Step) :
    s.run (steps ++ more) = (s.run steps).run more := List.foldl_append

theorem ofParameters_eq_run (params : List Parameter) :
    ofParameters params = empty.run (params.map .param) := by
  unfold ofParameters run
  rw [List.foldl_map]
  rfl

/-! ## Bracketed steps -/

/-- Steps in which every `enter` has its `exit`, with locals between them. -/
inductive Bracketed : List Step → Prop where
  | nil : Bracketed []
  | declare {name : String} {kind : LocalKind} {rest : List Step} :
      Bracketed rest → Bracketed (.declare name kind :: rest)
  | block {inner rest : List Step} :
      Bracketed inner → Bracketed rest → Bracketed (.enter :: (inner ++ .exit :: rest))

/-- Leaving a new block gives the scope back, if only the new block was changed. -/
theorem exit_of_enter {s t : Scope} {changed : Bindings LocalKind}
    (h : t = { s.enter with blocks := changed :: s.blocks }) : t.exit = s := by
  rw [h]
  rfl

/-- With a block open, bracketed steps change this block only. -/
theorem exists_run_of_bracketed {steps : List Step} (h : Bracketed steps) {s : Scope}
    {block : Bindings LocalKind} {rest : List (Bindings LocalKind)} (hs : s.blocks = block :: rest) :
    ∃ changed, s.run steps = { s with blocks := changed :: rest } := by
  induction h generalizing s block rest with
  | nil => exact ⟨block, by rw [run_nil, ← hs]⟩
  | @declare name kind _ _ ih =>
    have hdeclare : s.step (.declare name kind) =
        { s with blocks := ((name, kind) :: block) :: rest } := by
      simp only [step, Scope.declare, hs]
    rw [run_cons, hdeclare]
    exact ih rfl
  | @block inner _ _ _ ihinner ihrest =>
    -- the inner steps change the new block, and the `exit` drops it
    obtain ⟨changed, hinner⟩ := ihinner (show s.enter.blocks = [] :: s.blocks from rfl)
    rw [run_cons, run_append, run_cons]
    change ∃ changed, ((s.enter.run inner).exit).run _ = _
    rw [exit_of_enter hinner]
    exact ihrest hs

/-- Whatever bracketed steps do in a new block, leaving the block undoes it. -/
theorem run_bracketed_block (s : Scope) {steps : List Step} (h : Bracketed steps) :
    s.run ([.enter] ++ steps ++ [.exit]) = s := by
  obtain ⟨changed, hsteps⟩ :=
    exists_run_of_bracketed h (show s.enter.blocks = [] :: s.blocks from rfl)
  rw [run_append, run_append]
  exact exit_of_enter hsteps

/-! ## Depths -/

/-- The depth after a step. A local opens a block where there is none, and an `exit` where there is
none does nothing. -/
def Step.depth (d : Nat) : Step → Nat
  | .enter => d + 1
  | .exit => d - 1
  | .declare _ _ => max d 1
  | .param _ => d

/-- The depth after a history. -/
def depthAfter (history : List Step) : Nat := history.foldl Step.depth 0

theorem depthAfter_concat (history : List Step) (x : Step) :
    depthAfter (history ++ [x]) = x.depth (depthAfter history) := by
  unfold depthAfter
  rw [List.foldl_append]
  rfl

theorem depth_step (s : Scope) (x : Step) : (s.step x).depth = x.depth s.depth := by
  cases x with
  | enter => rfl
  | exit => simp [step, Scope.exit, Scope.depth, Step.depth]
  | declare name kind =>
    rcases hs : s.blocks with _ | ⟨block, rest⟩
    · simp [step, Scope.declare, Scope.depth, Step.depth, hs]
    · simp [step, Scope.declare, Scope.depth, Step.depth, hs]
  | param p => rfl

theorem depth_run_empty (history : List Step) :
    (empty.run history).depth = depthAfter history := by
  induction history using List.reverseRecOn with
  | nil => rfl
  | append_singleton history x ih =>
    rw [run_append, run_cons, run_nil, depth_step, ih, depthAfter_concat]

/-! ## Open bindings -/

/-- The step at the place bound the name to the kind in the block of the level, and this block is
still open at the end of the history. -/
structure OpenBinding (history : List Step) (name : String) (level place : Nat)
    (kind : LocalKind) : Prop where
  declared : history[place]? = some (.declare name kind)
  level_eq : depthAfter (history.take (place + 1)) = level
  stillOpen : ∀ n, place < n → n ≤ history.length → level ≤ depthAfter (history.take n)

section OpenBinding

variable {history : List Step} {name : String} {level place : Nat} {kind : LocalKind}

theorem OpenBinding.lt_length (h : OpenBinding history name level place kind) :
    place < history.length :=
  (List.getElem?_eq_some_iff.mp h.declared).1

theorem OpenBinding.level_le (h : OpenBinding history name level place kind) :
    level ≤ depthAfter history := by
  have hopen := h.stillOpen history.length h.lt_length (Nat.le_refl _)
  rwa [List.take_length] at hopen

/-- What is bound later, while a binding is open, is bound at its level or further inside. -/
theorem OpenBinding.level_mono {level' place' : Nat} {kind' : LocalKind}
    (h : OpenBinding history name level place kind)
    (h' : OpenBinding history name level' place' kind') (hle : place ≤ place') :
    level ≤ level' := by
  rw [← h'.level_eq]
  have hlt := h'.lt_length
  exact h.stillOpen (place' + 1) (by omega) (by omega)

/-- After one more step a binding is open if it was and the depth did not fall below its level, or if
the step made it. -/
theorem openBinding_concat {x : Step} :
    OpenBinding (history ++ [x]) name level place kind ↔
      OpenBinding history name level place kind ∧ level ≤ depthAfter (history ++ [x]) ∨
      place = history.length ∧ x = .declare name kind ∧ level = depthAfter (history ++ [x]) := by
  have htake : ∀ n ≤ history.length, (history ++ [x]).take n = history.take n := fun n hn =>
    List.take_append_of_le_length hn
  have hall : (history ++ [x]).take (history.length + 1) = history ++ [x] :=
    List.take_of_length_le (by simp)
  have hlength : (history ++ [x]).length = history.length + 1 := by simp
  constructor
  · intro h
    have hlt := h.lt_length
    by_cases hplace : place = history.length
    · refine Or.inr ⟨hplace, ?_, ?_⟩
      · simpa [hplace] using h.declared
      · rw [← h.level_eq, hplace, hall]
    · have hold : place < history.length := by omega
      refine Or.inl ⟨⟨?_, ?_, fun n hn hle => ?_⟩, h.level_le⟩
      · rw [← h.declared, List.getElem?_append_left hold]
      · rw [← h.level_eq, htake _ (by omega)]
      · rw [← htake n hle]
        exact h.stillOpen n hn (by omega)
  · rintro (⟨h, hlevel⟩ | ⟨rfl, rfl, rfl⟩)
    · have hlt := h.lt_length
      refine ⟨?_, ?_, fun n hn hle => ?_⟩
      · rw [List.getElem?_append_left hlt, h.declared]
      · rw [htake _ (by omega), h.level_eq]
      · by_cases hlast : n = history.length + 1
        · rw [hlast, hall]
          exact hlevel
        · rw [htake n (by omega)]
          exact h.stillOpen n hn (by omega)
    · refine ⟨by simp, by rw [hall], fun n hn hle => ?_⟩
      have hlast : n = history.length + 1 := by omega
      exact Nat.le_of_eq (by rw [hlast, hall])

end OpenBinding

/-! ## The newest of several bindings -/

/-- The kind that is bound at the greatest place, if there is any. -/
inductive Newest (bound : Nat → LocalKind → Prop) : Option LocalKind → Prop where
  | found {place : Nat} {kind : LocalKind} : bound place kind →
      (∀ place' kind', bound place' kind' → place' ≤ place) → Newest bound (some kind)
  | none : (∀ place kind, ¬ bound place kind) → Newest bound none

theorem Newest.congr {bound bound' : Nat → LocalKind → Prop} {found : Option LocalKind}
    (h : Newest bound found) (hiff : ∀ place kind, bound' place kind ↔ bound place kind) :
    Newest bound' found := by
  cases h with
  | found hbound hnewest =>
    exact .found ((hiff _ _).mpr hbound) fun place' kind' h => hnewest _ _ ((hiff _ _).mp h)
  | none hnone => exact .none fun place kind h => hnone _ _ ((hiff _ _).mp h)

theorem Newest.of_last {bound : Nat → LocalKind → Prop} {last : Nat} {kind : LocalKind}
    (hlast : bound last kind) (hlt : ∀ place kind', bound place kind' → place < last + 1) :
    Newest bound (some kind) :=
  .found hlast fun place kind' h => Nat.le_of_lt_succ (hlt place kind' h)

theorem Newest.exists_place {bound : Nat → LocalKind → Prop} {kind : LocalKind}
    (h : Newest bound (some kind)) : ∃ place, bound place kind := by
  cases h with
  | found hbound _ => exact ⟨_, hbound⟩

/-- Where a place has one kind at most, there is one newest kind at most. -/
theorem Newest.unique {bound : Nat → LocalKind → Prop} {found found' : Option LocalKind}
    (hone : ∀ place kind kind', bound place kind → bound place kind' → kind = kind')
    (h : Newest bound found) (h' : Newest bound found') : found = found' := by
  cases h with
  | @found place kind hbound hnewest =>
    cases h' with
    | @found place' kind' hbound' hnewest' =>
      have hplace : place = place' :=
        Nat.le_antisymm (hnewest' _ _ hbound) (hnewest _ _ hbound')
      subst hplace
      rw [hone _ _ _ hbound hbound']
    | none hnone => exact absurd hbound (hnone _ _)
  | none hnone =>
    cases h' with
    | found hbound' _ => exact absurd hbound' (hnone _ _)
    | none _ => rfl

/-! ## What the blocks find -/

/-- The name has an open binding at the place, in a block up to the level. -/
def OpenUpTo (history : List Step) (name : String) (level place : Nat) (kind : LocalKind) : Prop :=
  ∃ l ≤ level, OpenBinding history name l place kind

/-- A step that makes no binding of the name up to the level keeps the ones that it does not close. -/
theorem openUpTo_concat {history : List Step} {x : Step} {name : String} {level level' : Nat}
    (hx : ∀ kind, x = .declare name kind → level' < depthAfter (history ++ [x]))
    (hlevel : ∀ l ≤ depthAfter history,
      l ≤ level' ∧ l ≤ depthAfter (history ++ [x]) ↔ l ≤ level) (place : Nat) (kind : LocalKind) :
    OpenUpTo (history ++ [x]) name level' place kind ↔ OpenUpTo history name level place kind := by
  constructor
  · rintro ⟨l, hl, h⟩
    rcases openBinding_concat.mp h with ⟨h, hopen⟩ | ⟨-, hdeclare, rfl⟩
    · exact ⟨l, (hlevel l h.level_le).mp ⟨hl, hopen⟩, h⟩
    · have := hx kind hdeclare
      omega
  · rintro ⟨l, hl, h⟩
    obtain ⟨hl, hopen⟩ := (hlevel l h.level_le).mpr hl
    exact ⟨l, hl, openBinding_concat.mpr (Or.inl ⟨h, hopen⟩)⟩

theorem findSome?_blocks_declare (s : Scope) (other name : String) (kind : LocalKind) :
    (s.declare other kind).blocks.findSome? (·.lookup name) =
      if name = other then some kind else s.blocks.findSome? (·.lookup name) := by
  by_cases hname : name = other
  · rcases hs : s.blocks with _ | ⟨block, rest⟩
    · simp [declare, hs, hname]
    · simp [declare, hs, hname]
  · have hne : (name == other) = false := by simpa using hname
    rcases hs : s.blocks with _ | ⟨block, rest⟩
    · simp [declare, hs, hname, List.lookup_cons, hne]
    · simp [declare, hs, hname, List.lookup_cons, List.findSome?_cons, hne]

/-- Outside the innermost block a local changes nothing. -/
theorem drop_blocks_declare (s : Scope) (name : String) (kind : LocalKind) (n : Nat) :
    (s.declare name kind).blocks.drop (n + 1) = s.blocks.drop (n + 1) := by
  rcases hs : s.blocks with _ | ⟨block, rest⟩
  · simp [declare, hs]
  · simp [declare, hs]

/-- Without its innermost `n` blocks the scope finds the newest open binding of the name in the levels
that are left. -/
def FindsOpen (history : List Step) (name : String) (s : Scope) : Prop :=
  ∀ n, Newest (OpenUpTo history name (depthAfter history - n))
    ((s.blocks.drop n).findSome? (·.lookup name))

section Step

variable {history : List Step} {name : String} {s : Scope} (h : FindsOpen history name s)
include h

/-- The new block has a level of its own and binds nothing. -/
theorem findsOpen_enter : FindsOpen (history ++ [.enter]) name s.enter := by
  have hdepth : depthAfter (history ++ [.enter]) = depthAfter history + 1 := depthAfter_concat ..
  intro n
  cases n with
  | zero =>
    refine (h 0).congr (openUpTo_concat (fun _ hx => by cases hx) fun l hl => ?_)
    omega
  | succ n =>
    refine (h n).congr (openUpTo_concat (fun _ hx => by cases hx) fun l hl => ?_)
    omega

/-- What is found now was found before with one block more left out. -/
theorem findsOpen_exit : FindsOpen (history ++ [.exit]) name s.exit := by
  have hdepth : depthAfter (history ++ [.exit]) = depthAfter history - 1 := depthAfter_concat ..
  intro n
  have hdrop : s.exit.blocks.drop n = s.blocks.drop (n + 1) := by
    simp [Scope.exit, List.drop_tail]
  rw [hdrop]
  refine (h (n + 1)).congr (openUpTo_concat (fun _ hx => by cases hx) fun l hl => ?_)
  omega

theorem findsOpen_addParam (p : Parameter) :
    FindsOpen (history ++ [.param p]) name (s.addParam p) := by
  have hdepth : depthAfter (history ++ [.param p]) = depthAfter history := depthAfter_concat ..
  intro n
  refine (h n).congr (openUpTo_concat (fun _ hx => by cases hx) fun l hl => ?_)
  omega

theorem findsOpen_declare (other : String) (kind : LocalKind) :
    FindsOpen (history ++ [.declare other kind]) name (s.declare other kind) := by
  have hdepth : depthAfter (history ++ [.declare other kind]) = max (depthAfter history) 1 :=
    depthAfter_concat ..
  intro n
  cases n with
  | zero =>
    rw [List.drop_zero, findSome?_blocks_declare]
    by_cases hname : name = other
    · -- the new binding comes after all others
      subst hname
      have hnew : OpenBinding (history ++ [.declare name kind]) name _ history.length kind :=
        openBinding_concat.mpr (Or.inr ⟨rfl, rfl, rfl⟩)
      rw [if_pos rfl]
      refine .of_last ⟨_, Nat.le_refl _, hnew⟩ fun place kind' hopen => ?_
      obtain ⟨l, -, hopen⟩ := hopen
      simpa using hopen.lt_length
    · rw [if_neg hname]
      refine (h 0).congr (openUpTo_concat (fun _ hx => ?_) fun l hl => ?_)
      · cases hx
        exact absurd rfl hname
      · omega
  | succ n =>
    -- the block of the new binding is among those left out
    rw [drop_blocks_declare]
    refine (h (n + 1)).congr (openUpTo_concat (fun _ _ => ?_) fun l hl => ?_)
    · omega
    · omega

theorem findsOpen_step (x : Step) : FindsOpen (history ++ [x]) name (s.step x) := by
  cases x with
  | enter => exact findsOpen_enter h
  | exit => exact findsOpen_exit h
  | declare other kind => exact findsOpen_declare h other kind
  | param p => exact findsOpen_addParam h p

end Step

theorem findsOpen_run (history : List Step) (name : String) :
    FindsOpen history name (empty.run history) := by
  induction history using List.reverseRecOn with
  | nil =>
    intro n
    have hnone : ((empty.run []).blocks.drop n).findSome? (·.lookup name) = none := by
      simp [empty]
    rw [hnone]
    refine .none fun place kind => ?_
    rintro ⟨l, -, hopen⟩
    exact absurd hopen.lt_length (by simp)
  | append_singleton history x ih =>
    rw [run_append, run_cons, run_nil]
    exact findsOpen_step ih x

/-! ## Parameters -/

/-- The step at the place bound a parameter of the name as the kind. -/
def ParamAt (history : List Step) (name : String) (place : Nat) (kind : LocalKind) : Prop :=
  ∃ p, history[place]? = some (.param p) ∧ p.name = name ∧ LocalKind.ofParameter p = kind

theorem ParamAt.lt_length {history : List Step} {name : String} {place : Nat} {kind : LocalKind}
    (h : ParamAt history name place kind) : place < history.length := by
  obtain ⟨p, hp, -⟩ := h
  exact (List.getElem?_eq_some_iff.mp hp).1

/-- A step that binds no parameter of the name keeps the parameters of the name. -/
theorem paramAt_concat {history : List Step} {x : Step} {name : String}
    (hx : ∀ p, x = .param p → p.name ≠ name) (place : Nat) (kind : LocalKind) :
    ParamAt (history ++ [x]) name place kind ↔ ParamAt history name place kind := by
  constructor
  · rintro ⟨p, hp, hname, hkind⟩
    rcases Nat.lt_trichotomy place history.length with hlt | rfl | hgt
    · exact ⟨p, by rw [← hp, List.getElem?_append_left hlt], hname, hkind⟩
    · exact absurd hname (hx p (by simpa using hp))
    · have hnone : (history ++ [x])[place]? = none := by
        rw [List.getElem?_eq_none_iff, List.length_append, List.length_singleton]
        omega
      rw [hnone] at hp
      cases hp
  · intro h
    have hlt := h.lt_length
    obtain ⟨p, hp, hname, hkind⟩ := h
    exact ⟨p, by rw [List.getElem?_append_left hlt, hp], hname, hkind⟩

theorem params_step_of_not_param (s : Scope) {x : Step} (hx : ∀ p, x ≠ .param p) :
    (s.step x).params = s.params := by
  cases x with
  | enter => rfl
  | exit => rfl
  | declare name kind =>
    rw [step, declare]
    split <;> rfl
  | param p => exact absurd rfl (hx p)

/-- The parameters find the newest one of the name. -/
theorem newest_params (history : List Step) (name : String) :
    Newest (ParamAt history name) ((empty.run history).params.lookup name) := by
  induction history using List.reverseRecOn with
  | nil =>
    refine .none fun place kind h => ?_
    exact absurd h.lt_length (by simp)
  | append_singleton history x ih =>
    rw [run_append, run_cons, run_nil]
    by_cases hparam : ∃ p, x = .param p
    · obtain ⟨p, rfl⟩ := hparam
      have hparams : ((empty.run history).step (.param p)).params =
          (p.name, LocalKind.ofParameter p) :: (empty.run history).params := rfl
      rw [hparams]
      by_cases hname : name = p.name
      · subst hname
        rw [List.lookup_cons_self]
        have hnew : (history ++ [.param p])[history.length]? = some (.param p) := by simp
        refine .of_last ⟨p, hnew, rfl, rfl⟩ fun place' kind' h => ?_
        simpa using h.lt_length
      · have hne : (name == p.name) = false := by simpa using hname
        rw [List.lookup_cons, hne]
        refine ih.congr (paramAt_concat fun q hq => ?_)
        cases hq
        exact Ne.symm hname
    · rw [params_step_of_not_param _ fun p hp => hparam ⟨p, hp⟩]
      exact ih.congr (paramAt_concat fun q hq => absurd ⟨q, hq⟩ hparam)

/-! ## The meaning of a name -/

/-- What a name means after a history. In the innermost open block that binds it, the newest binding
counts. If no open block binds it, the newest parameter of the name counts. -/
inductive Means (history : List Step) (name : String) : Option LocalKind → Prop where
  | inBlock {level : Nat} {kind : LocalKind} :
      (∀ level' place kind', OpenBinding history name level' place kind' → level' ≤ level) →
      Newest (OpenBinding history name level) (some kind) → Means history name (some kind)
  | outside {found : Option LocalKind} :
      (∀ level place kind, ¬ OpenBinding history name level place kind) →
      Newest (ParamAt history name) found → Means history name found

/-- A lookup finds what the name means. -/
theorem means_lookup (history : List Step) (name : String) :
    Means history name ((empty.run history).lookup name) := by
  have hblocks := findsOpen_run history name 0
  unfold lookup
  rw [List.drop_zero, Nat.sub_zero] at hblocks
  cases hfound : (empty.run history).blocks.findSome? (·.lookup name) with
  | some kind =>
    rw [hfound] at hblocks
    cases hblocks with
    | found hbound hnewest =>
      obtain ⟨level, -, hopen⟩ := hbound
      refine .inBlock (fun level' place' kind' h => ?_)
        (.found hopen fun place' kind' h => hnewest place' kind' ⟨level, hopen.level_le, h⟩)
      -- a binding that is not newer is not further inside
      exact h.level_mono hopen (hnewest place' kind' ⟨level', h.level_le, h⟩)
  | none =>
    rw [hfound] at hblocks
    cases hblocks with
    | none hnone =>
      exact .outside (fun level place kind h => hnone place kind ⟨level, h.level_le, h⟩)
        (newest_params history name)

theorem Means.unique {history : List Step} {name : String} {found found' : Option LocalKind}
    (h : Means history name found) (h' : Means history name found') : found = found' := by
  cases h with
  | @inBlock level kind hinner hnewest =>
    obtain ⟨place, hopen⟩ := hnewest.exists_place
    cases h' with
    | @inBlock level' kind' hinner' hnewest' =>
      obtain ⟨place', hopen'⟩ := hnewest'.exists_place
      have hlevel : level = level' :=
        Nat.le_antisymm (hinner' _ _ _ hopen) (hinner _ _ _ hopen')
      subst hlevel
      refine hnewest.unique (fun place a b ha hb => ?_) hnewest'
      have hsame := ha.declared.symm.trans hb.declared
      simpa using hsame
    | outside hno _ => exact absurd hopen (hno _ _ _)
  | outside hno hnewest =>
    cases h' with
    | inBlock _ hnewest' =>
      obtain ⟨place, hopen⟩ := hnewest'.exists_place
      exact absurd hopen (hno _ _ _)
    | outside _ hnewest' =>
      refine hnewest.unique (fun place a b ha hb => ?_) hnewest'
      obtain ⟨p, hp, -, rfl⟩ := ha
      obtain ⟨q, hq, -, rfl⟩ := hb
      have hsame := hp.symm.trans hq
      simp only [Option.some.injEq, Step.param.injEq] at hsame
      rw [hsame]

end Scope

/-- Take any scope that a member's parameters and later steps lead to. A new block with bracketed
steps in it leaves the depth and the meaning of every name as they were. The depth is that of the
history, and a lookup of a name finds what the name means after the history, and nothing else. -/
theorem a_name_means_its_newest_binding_in_the_innermost_block (params : List Parameter)
    (steps : List Scope.Step) :
    let s := (Scope.ofParameters params).run steps
    let history := params.map .param ++ steps
    (∀ inner, Scope.Bracketed inner →
      let after := s.run ([.enter] ++ inner ++ [.exit])
      after.depth = s.depth ∧ ∀ name, after.lookup name = s.lookup name) ∧
    s.depth = Scope.depthAfter history ∧
    ∀ name found, s.lookup name = found ↔ Scope.Means history name found := by
  intro s history
  have hs : s = Scope.empty.run history := by
    simp only [s, history, Scope.ofParameters_eq_run, Scope.run_append]
  refine ⟨fun inner hinner => ?_, ?_, fun name found => ?_⟩
  · rw [Scope.run_bracketed_block s hinner]
    exact ⟨rfl, fun _ => rfl⟩
  · rw [hs, Scope.depth_run_empty]
  · have hmeans := Scope.means_lookup history name
    rw [hs]
    constructor
    · rintro rfl
      exact hmeans
    · exact hmeans.unique

/-- A block is left where none is open, and a local comes before the first block: the local opens one
and hides the parameter, and the `ref` further inside hides the local. A block in it that binds the
name once more changes nothing. -/
theorem a_ref_hides_a_local_that_hides_a_parameter :
    let params : List Parameter := [{ name := "p", isPointer := true }]
    let steps : List Scope.Step :=
      [.exit, .declare "p" .plain, .enter, .declare "p" (.ref false), .declare "p" (.ref true)]
    let inner : List Scope.Step := [.declare "p" (.pointer true), .enter, .exit]
    let s := (Scope.ofParameters params).run steps
    Scope.Bracketed inner ∧ s.depth = 2 ∧ s.lookup "p" = some (.ref true) ∧
      (s.run ([.enter] ++ inner ++ [.exit])).lookup "p" = some (.ref true) ∧
      Scope.Means (params.map .param ++ steps) "p" (some (.ref true)) := by
  intro params steps inner s
  obtain ⟨hblock, -, hmeans⟩ :=
    a_name_means_its_newest_binding_in_the_innermost_block params steps
  have hinner : Scope.Bracketed inner := .declare (.block .nil .nil)
  have hlookup : s.lookup "p" = some (.ref true) := by decide
  exact ⟨hinner, by decide, hlookup, ((hblock inner hinner).2 "p").trans hlookup,
    (hmeans "p" _).mp hlookup⟩

end ReadonlyLint
