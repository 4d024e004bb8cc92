import EnumStamp.Proofs.Arena.Persistence
import EnumStamp.Proofs.Builder
import EnumStamp.Proofs.Stamping.Turns

/-!
Desks: all that a host can do with an arena, one action after another. The arena lies on the desk,
or a builder has it and works on declarations that are open inside one another. Main statements:
what holds of every arena that was made from nothing with proper arguments, and that no history
changes what was there before, whatever its arguments.
-/

set_option autoImplicit false

namespace EnumStamp

open Arena

namespace Builder

/-- Calls of a builder that write something complete. -/
inductive Call where
  | identifier (name : String)
  | keyword (token : Token)
  | number (value : String)
  | quoted (value : String)
  | enumDeclaration (modifiers : List Token) (name : String) (members : List MemberOutline)
  | property (name value : String)
  | returnStatement (value : String)
  | docComment (comment : String)
  | newline

def Call.perform : Call → Builder → Builder
  | .identifier name, builder => (builder.identifier name).1
  | .keyword token, builder => (builder.keyword token).1
  | .number value, builder => (builder.number value).1
  | .quoted value, builder => (builder.quoted value).1
  | .enumDeclaration modifiers name members, builder =>
    (builder.enumDeclaration modifiers name members).1
  | .property name value, builder => (builder.property name value).1
  | .returnStatement value, builder => (builder.returnStatement value).1
  | .docComment comment, builder => (builder.docComment comment).1
  | .newline, builder => builder.newline

inductive Body where
  | ofFunction (name : String)
  | ofClass (name : String)
  | ofNamespace (modifiers : List Token) (name : String)

def Body.enter : Body → Builder → Builder × Opened
  | .ofFunction name, builder => builder.openFunction name
  | .ofClass name, builder => builder.openClass name
  | .ofNamespace modifiers name, builder => builder.openNamespace modifiers name

def Body.leave : Body → Opened → (contents : List NodeId) → Builder → Builder × NodeId
  | .ofFunction _, opened, contents, builder => builder.closeFunction opened contents
  | .ofClass _, opened, contents, builder => builder.closeClass opened contents
  | .ofNamespace _ _, opened, contents, builder => builder.closeNamespace opened contents

theorem builds_perform (builder : Builder) (call : Call) :
    builder.arena.Builds [] (call.perform builder).arena [] := by
  have nothing : ∀ {last : Arena} {gained : List NodeId}, builder.arena.Builds [] last gained →
      builder.arena.Builds [] last [] :=
    fun builds => builds.fewer fun _ member => nomatch member
  cases call with
  | identifier name => exact nothing (builder.builds_identifier name)
  | keyword token => exact nothing (builder.builds_keyword token)
  | number value => exact nothing (builder.builds_number value)
  | quoted value => exact nothing (builder.builds_quoted value)
  | enumDeclaration modifiers name members =>
    exact nothing (builder.builds_enumDeclaration modifiers name members)
  | property name value => exact nothing (builder.builds_property name value)
  | returnStatement value => exact nothing (builder.builds_returnStatement value)
  | docComment comment => exact nothing (builder.builds_docComment comment)
  | newline => exact Builds.refl _ _

theorem builds_enter (builder : Builder) (body : Body) :
    builder.arena.Builds [] (body.enter builder).1.arena (body.enter builder).2.handles := by
  cases body with
  | ofFunction name => exact builder.builds_openFunction name
  | ofClass name => exact builder.builds_openClass name
  | ofNamespace modifiers name => exact builder.builds_openNamespace modifiers name

theorem builds_leave (builder : Builder) (body : Body) (opened : Opened)
    (contents : List NodeId) :
    builder.arena.Builds (opened.handles ++ contents) (body.leave opened contents builder).1.arena
      [(body.leave opened contents builder).2] := by
  cases body with
  | ofFunction => exact builder.builds_closeFunction opened contents
  | ofClass => exact builder.builds_closeClass opened contents
  | ofNamespace => exact builder.builds_closeNamespace opened contents

end Builder

/-- An arena, or a builder that has it, with the declarations that are open, the inmost first. -/
inductive Desk where
  | free (arena : Arena)
  | building (builder : Builder) (bodies : List (Builder.Body × Builder.Opened))

inductive Action where
  | edit (op : Operation)
  | stamp (mode : Mode) (root : NodeId)
  | start
  | write (call : Builder.Call)
  | enter (body : Builder.Body)
  | leave (contents : List NodeId)
  | finish (fileName : String) (statements : List NodeId)

/-- Whether kinds suit, and nodes that are passed as children are absent or in the arena. -/
def Action.Proper (arena : Arena) : Action → Prop
  | .edit op => op.Proper arena
  | .leave contents => ∀ id ∈ contents, arena.Holds id
  | .finish _ statements => ∀ id ∈ statements, arena.Holds id
  | _ => True

namespace Desk

def arena : Desk → Arena
  | .free arena => arena
  | .building builder _ => builder.arena

/-- The handles that are kept for open declarations. -/
def handles : Desk → List NodeId
  | .free _ => []
  | .building _ bodies => bodies.flatMap fun body => body.2.handles

/-- One action. A walk that comes to no end is no action; its stamper can have any cache. -/
inductive Does : Desk → Action → Desk → Prop where
  | edit {arena : Arena} {op : Operation} : Does (.free arena) (.edit op) (.free (op.apply arena).1)
  | stamp {σ : Type} {stamper : Stamper σ} {resolve : Cache.Resolver σ} {mode : Mode}
      {arena : Arena} {root : NodeId} {walked : Stamper.Walked σ}
      (stamps : stamper.stamp resolve mode arena root = some walked) :
      Does (.free arena) (.stamp mode root) (.free walked.arena)
  | start {arena : Arena} : Does (.free arena) .start (.building (Builder.start arena) [])
  | write {builder : Builder} {bodies : List (Builder.Body × Builder.Opened)}
      {call : Builder.Call} :
      Does (.building builder bodies) (.write call) (.building (call.perform builder) bodies)
  | enter {builder : Builder} {bodies : List (Builder.Body × Builder.Opened)}
      {body : Builder.Body} :
      Does (.building builder bodies) (.enter body)
        (.building (body.enter builder).1 ((body, (body.enter builder).2) :: bodies))
  | leave {builder : Builder} {bodies : List (Builder.Body × Builder.Opened)}
      {body : Builder.Body} {opened : Builder.Opened} {contents : List NodeId} :
      Does (.building builder ((body, opened) :: bodies)) (.leave contents)
        (.building (body.leave opened contents builder).1 bodies)
  | finish {builder : Builder} {fileName : String} {statements : List NodeId} :
      Does (.building builder []) (.finish fileName statements)
        (.free (builder.finish fileName statements).1)

/-- A desk comes from another by actions that are allowed where they happen. -/
inductive Run (allowed : Arena → Action → Prop) (first : Desk) : Desk → Prop where
  | start : Run allowed first first
  | next {between last : Desk} {action : Action} (early : Run allowed first between)
      (fine : allowed between.arena action) (does : Does between action last) :
      Run allowed first last

/-- A desk in order: the arena is well-formed, it has dealt out its places one by one, and it holds
what is kept for open declarations. -/
structure Tidy (desk : Desk) : Prop where
  sound : desk.arena.WellFormed
  dealt : desk.arena.Dealt
  held : ∀ id ∈ desk.handles, desk.arena.Holds id

/-- What is built from handles of a desk in order leaves a desk in order. -/
theorem Tidy.of_builds {desk next : Desk} {given gained : List NodeId} (tidy : desk.Tidy)
    (builds : desk.arena.Builds given next.arena gained)
    (known : ∀ id ∈ given, desk.arena.Holds id) (kept : ∀ id ∈ next.handles, id ∈ gained)
    (fits : next.arena.Fits) : next.Tidy := by
  obtain ⟨sound, held⟩ := builds.sound fits tidy.sound known
  exact ⟨sound, builds.dealt fits tidy.dealt, fun id member => held id (kept id member)⟩

theorem Does.edits {desk next : Desk} {action : Action} (does : Does desk action next) :
    desk.arena.Edits next.arena := by
  cases does with
  | edit => exact Edits.apply _ _
  | stamp stamps => exact Stamper.edits_stamp stamps
  | start => exact Edits.refl _
  | write => exact (Builder.builds_perform _ _).edits
  | enter => exact (Builder.builds_enter _ _).edits
  | leave => exact (Builder.builds_leave _ _ _ _).edits
  | finish => exact (Builder.builds_finish _ _ _).edits

theorem Does.tidy {desk next : Desk} {action : Action} (does : Does desk action next)
    (proper : action.Proper desk.arena) (tidy : desk.Tidy) (fits : next.arena.Fits) :
    next.Tidy := by
  cases does with
  | edit =>
    exact ⟨(tidy.sound.apply proper fits).1, tidy.dealt.apply proper.1 fits,
      fun _ member => nomatch member⟩
  | stamp stamps =>
    exact tidy.of_builds (Stamper.builds_stamp stamps tidy.sound) (fun _ member => nomatch member)
      (fun _ member => nomatch member) fits
  | start => exact ⟨tidy.sound, tidy.dealt, fun _ member => nomatch member⟩
  | write =>
    exact tidy.of_builds ((Builder.builds_perform _ _).frame _) tidy.held (fun _ member => member)
      fits
  | enter =>
    exact tidy.of_builds ((Builder.builds_enter _ _).frame _) tidy.held (fun _ member => member)
      fits
  | leave =>
    refine tidy.of_builds ((Builder.builds_leave _ _ _ _).frame _) ?_
      (fun _ member => List.mem_append_right _ member) fits
    intro id member
    simp only [List.append_assoc, List.mem_append] at member
    rcases member with mine | content | others
    · exact tidy.held id (List.mem_append_left _ mine)
    · exact proper id content
    · exact tidy.held id (List.mem_append_right _ others)
  | finish =>
    exact tidy.of_builds (Builder.builds_finish _ _ _) proper (fun _ member => nomatch member) fits

variable {allowed : Arena → Action → Prop} {first last : Desk}

theorem Run.edits (run : Run allowed first last) : first.arena.Edits last.arena := by
  induction run with
  | start => exact Edits.refl _
  | next _ _ does ih => exact ih.trans does.edits

/-- Proper actions keep a desk in order. -/
theorem Run.tidy (run : Run Action.Proper first last) (tidy : first.Tidy)
    (fits : last.arena.Fits) : last.Tidy := by
  induction run with
  | start => exact tidy
  | next _ fine does ih =>
    exact does.tidy fine (ih (fits.of_extends does.edits.extends)) fits

/-- Every arena that was made from nothing with proper arguments, and that fits, is well-formed;
every payload has one owner, so a pool is as long as the number of nodes that have something in it;
and the children of nodes lead to finite trees without circles. -/
theorem Run.represents (run : Run Action.Proper (.free .empty) last) (fits : last.arena.Fits) :
    last.arena.WellFormed ∧
    (∀ category place, place < last.arena.poolSize category →
      ∃! position, last.arena.Owns position category place) ∧
    (∀ category, last.arena.poolSize category = last.arena.nodes.countP (usesPool category)) ∧
    (∀ id, ¬ Relation.TransGen (fun parent child => child ∈ last.arena.children parent) id id) ∧
    ∀ id header, last.arena.header? id = some header →
      last.arena.tree id = .node (header.label (last.arena.payloadAt? header))
        ((last.arena.slotsAt header).map last.arena.tree) := by
  have start : (Desk.free .empty).Tidy :=
    ⟨(by decide : Arena.empty.WellFormed), dealt_empty, fun _ member => nomatch member⟩
  have tidy := run.tidy start fits
  exact ⟨tidy.sound, fun _ _ => tidy.dealt.existsUnique_owns, tidy.dealt.poolSize_eq,
    tidy.sound.acyclic, fun _ _ => tree_eq tidy.sound⟩

/-- The declaration of a const enum with one member, which has the position 4. -/
def color : Builder.Call :=
  .enumDeclaration [.constKeyword] "Color" [⟨.identifier "Red", .none⟩]

/-- A file with a const enum is written and stamped; the copy of the enum owns its declaration. -/
theorem Run.represents_color :
    ∃ last, Run Action.Proper (.free .empty) last ∧ last.arena.Fits ∧ last.arena.WellFormed ∧
      ∃! position, last.arena.Owns position .enumeration 1 := by
  let written := color.perform (Builder.start .empty)
  let made := written.finish "color.ts" [.ofPosition 4]
  have sound : made.1.WellFormed := by decide +kernel
  have statement : Action.Proper written.arena (.finish "color.ts" [.ofPosition 4]) := by
    intro id member
    rw [List.mem_singleton.mp member]
    left
    unfold Has
    decide +kernel
  obtain ⟨result, final, stamped, stamps⟩ :=
    Stamper.numbered.exists_stamp OwnCache.resolve .file sound made.2
  have small : (Stamper.numbered.stamp OwnCache.resolve .file made.1 made.2).all (fun walked =>
      decide (walked.arena.Fits ∧ 1 < walked.arena.poolSize .enumeration)) = true := by
    decide +kernel
  rw [stamps, Option.all_some, decide_eq_true_eq] at small
  have wrote : Run Action.Proper (.free .empty) (.building written []) :=
    (Run.start.next trivial .start).next (by trivial) (.write : Does _ (.write color) _)
  have finished : Run Action.Proper (.free .empty) (.free made.1) := wrote.next statement .finish
  have run := finished.next (by trivial) (.stamp stamps)
  obtain ⟨after, owned, _⟩ := run.represents small.1
  exact ⟨_, run, small.1, after, owned _ _ small.2⟩

/-- Whatever a host does with an arena, and after any number of turns of any walk, all vectors are
still there with nothing but additions behind them, and unless references led out of the old arena,
nothing that was known about an old node has changed. -/
theorem Run.persists (run : Run allowed first last) {σ : Type} (resolve : Cache.Resolver σ)
    (file : Option String) (machine : Machine σ) (steps : Nat) :
    first.arena.Persists last.arena ∧
      machine.1.arena.Persists (machine.turns resolve file steps).1.arena :=
  ⟨.of_extends run.edits.extends, .of_extends (machine.edits_turns steps).extends⟩

/-- A new literal, and ten turns of the walk through the enum, leave the enum's name as it is. -/
theorem Run.persists_colors :
    ∃ last, Run (fun _ _ => True) (.free .colors) last ∧ Arena.colors.size < last.arena.size ∧
      last.arena.enumName? (.ofPosition 6) = some "Color" ∧
      ∃ machine : Machine CallLog, Arena.colors.size < machine.1.arena.size ∧
        machine.1.arena.enumName? (.ofPosition 6) = some "Color" := by
  let start : Machine CallLog := (Walk.start .colors (.ofPosition 6) [], CallLog.empty, #[])
  let last : Desk := .free (Operation.apply (.createString "text") .colors).1
  have run : Run (fun _ _ => True) (.free .colors) last := Run.start.next trivial .edit
  obtain ⟨byRun, byTurns⟩ := run.persists CallLog.resolve none start 10
  have closed : Arena.colors.Closed := WellFormed.closed (by decide)
  have has : Arena.colors.Has (.ofPosition 6) := by unfold Has; decide
  have name : Arena.colors.enumName? (.ofPosition 6) = some "Color" := by decide
  refine ⟨last, run, by decide, ?_, start.turns CallLog.resolve none 10, by decide +kernel, ?_⟩
  · exact (byRun.keeps closed _ has).enumName?.trans name
  · exact (byTurns.keeps closed _ has).enumName?.trans name

end Desk

end EnumStamp
