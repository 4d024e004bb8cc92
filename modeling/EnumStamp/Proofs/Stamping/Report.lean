import EnumStamp.Proofs.Stamping.Parts

set_option autoImplicit false

namespace EnumStamp

/-- What is reported of a node: its kind and its text. -/
abbrev Line := String × String

def Sighting.line (sighting : Sighting) : Line :=
  (sighting.kind, sighting.text)

namespace Arena

def linesOf (arena : Arena) (file id : NodeId) : List Line :=
  ((Sighting.ofNode? arena file id).map Sighting.line).toList

def sourceText? (arena : Arena) (id : NodeId) : Option String :=
  (arena.sourceFile? id).map SourceFile.text

/-- A collecting pass that is shown a root adds sightings with these lines to those it has. -/
def Reports (arena : Arena) (root : NodeId) (lines : List Line) : Prop :=
  ∀ pass : TracePass, pass.collects = true → ∃ traced, ∃ seen : List Sighting,
    pass.file arena root = some traced ∧ traced.pass.sightings = pass.sightings ++ seen ∧
      seen.map Sighting.line = lines

end Arena

namespace Part

def before (arena : Arena) (file : NodeId) (part : Part) : List Line :=
  (part.nodes arena).flatMap (arena.linesOf file)

/-- What is reported of what takes its place. -/
def after (arena : Arena) (file : NodeId) : Part → List Line
  | .node id => arena.linesOf file id
  | .initializer _ => [("StringLiteral", "<no text available>")]

end Part

namespace Label

def line (source : Option String) (label : Label) : Line :=
  let part := source.bind fun text =>
    if label.start == Header.noPosition then none
    else Text.slice? text label.start.toNat label.stop.toNat
  (label.kind.name,
    match part with
    | some text => String.ofList (text.toList.take Limits.previewLength)
    | none => Limits.noText)

def sourceText? (label : Label) : Option String :=
  match label.shape with
  | .sourceFile _ text => some text
  | _ => none

end Label

namespace Tree

def label? : Tree → Option Label
  | .node label _ => some label
  | _ => none

mutual

/-- What is reported of a tree in a file with the text `source`. -/
def lines (source : Option String) : Tree → List Line
  | .hole => []
  | .missing => []
  | .node label slots => label.line source :: linesAll source slots

def linesAll (source : Option String) : List Tree → List Line
  | [] => []
  | first :: others => first.lines source ++ linesAll source others

end

theorem linesAll_eq_flatMap (source : Option String) (trees : List Tree) :
    linesAll source trees = trees.flatMap (lines source) := by
  induction trees with
  | nil => rfl
  | cons first others ih => rw [linesAll, ih, List.flatMap_cons]

theorem lines_node (source : Option String) (label : Label) (slots : List Tree) :
    (node label slots).lines source = label.line source :: slots.flatMap (lines source) := by
  rw [lines, linesAll_eq_flatMap]

/-- A new string has no text in any file. -/
theorem lines_string (source : Option String) (text : String) :
    (string text).lines source = [("StringLiteral", "<no text available>")] := by
  cases source <;> rfl

end Tree

namespace Arena

variable {arena : Arena} {file id : NodeId}

theorem linesOf_of_header {header : Header} (found : arena.header? id = some header)
    (payload : Option Payload) :
    arena.linesOf file id = [(header.label payload).line (arena.sourceText? file)] := by
  rw [linesOf, Sighting.ofNode?, kind?, found, preview, nodeText?, found, sourceText?]
  cases arena.sourceFile? file <;> rfl

theorem label?_tree (sound : arena.WellFormed) {header : Header}
    (found : arena.header? id = some header) :
    (arena.tree id).label? = some (header.label (arena.payloadAt? header)) := by
  rw [tree_eq sound found]
  rfl

theorem sourceText?_tree (sound : arena.WellFormed) (id : NodeId) :
    (arena.tree id).label?.bind Label.sourceText? = arena.sourceText? id := by
  by_cases has : arena.Has id
  · obtain ⟨header, found⟩ := has.header
    rw [label?_tree sound found, sourceText?, sourceFile?, payload?_of_header? found]
    cases arena.payloadAt? header with
    | none => rfl
    | some payload => cases payload <;> rfl
  · have missing : arena.header? id = none := by simpa [Has] using has
    rw [tree_of_not_has has, sourceText?, sourceFile?, payload?, missing]
    split <;> rfl

theorem lines_ofNodes (file : NodeId) (ids : List NodeId) :
    (Sighting.ofNodes arena file ids).map Sighting.line = ids.flatMap (arena.linesOf file) := by
  rw [Sighting.ofNodes, List.map_filterMap, List.filterMap_eq_flatMap_toList]
  rfl

/-- Of a root the lines of all nodes at and below it are reported, in pre-order. -/
theorem reports (sound : arena.WellFormed) (root : NodeId) :
    arena.Reports root ((arena.preorder root).flatMap (arena.linesOf root)) := by
  intro pass collects
  exact ⟨_, _, TracePass.file_eq sound root pass, if_pos collects, lines_ofNodes root _⟩

/-- A tree says what is reported of the nodes at and below its node, in pre-order. -/
theorem lines_tree (sound : arena.WellFormed) (file id : NodeId) :
    (arena.tree id).lines (arena.sourceText? file) =
      (arena.preorder id).flatMap (arena.linesOf file) := by
  induction position : id.position using Nat.strongRecOn generalizing id with
  | ind position ih =>
    by_cases has : arena.Has id
    · obtain ⟨header, found⟩ := has.header
      have empty : (arena.tree .absent).lines (arena.sourceText? file) = [] := by
        rw [tree_absent, Tree.lines]
      have below : ∀ child ∈ arena.children id,
          (arena.tree child).lines (arena.sourceText? file) =
            (arena.preorder child).flatMap (arena.linesOf file) :=
        fun child member => ih child.position (position ▸ sound.child_lt member) child rfl
      rw [tree_eq sound found, Tree.lines_node, List.flatMap_map, ← flatMap_present empty,
        ← children_eq_filter found, List.flatMap_congr below, preorder_of_has sound has,
        List.flatMap_cons, List.flatMap_assoc, linesOf_of_header found]
      rfl
    · rw [tree_of_not_has has, preorder_of_not_has has]
      split <;> rfl

variable (file id)

theorem after_plainParts (arena : Arena) :
    (arena.plainParts id).flatMap (Part.after arena file) =
      (arena.preorder id).flatMap (arena.linesOf file) := by
  rw [plainParts, List.flatMap_map]
  rfl

/-- A member that gets a value has a string reported for its initializer, whatever the value is. -/
theorem lines_stampedMember (sound : arena.WellFormed) (values : String → String)
    (enumName : String) :
    ((arena.tree id).stampedMember values enumName).lines (arena.sourceText? file) =
      (arena.memberParts id).flatMap (Part.after arena file) := by
  cases atName : arena.memberName? id with
  | none =>
    rw [stampedMember_of_none sound values enumName atName, memberParts_of_none atName,
      after_plainParts, lines_tree sound]
  | some name =>
    obtain ⟨member, atMember, _⟩ := memberName?_eq_some_iff.mp atName
    obtain ⟨header, found, stored⟩ := payload_of_enumMember? atMember
    rw [stampedMember_of_name sound values enumName found stored atName,
      memberParts_of_name atMember atName]
    simp only [Tree.lines_node, Tree.lines_string, lines_tree sound, List.cons_append,
      List.flatMap_cons, List.flatMap_append, List.flatMap_nil, List.append_nil, after_plainParts,
      Part.after, linesOf_of_header found (some (.enumMember member)), List.nil_append]

/-- What is reported of a const enum that gets other members. -/
theorem lines_of_const (sound : arena.WellFormed) {header : Header} {decl : EnumDecl}
    {enumName : String} (found : arena.header? id = some header)
    (isEnum : arena.kind? id = some Construct.enumDeclaration.kind)
    (chosen : arena.constEnum? id = some (decl, enumName)) {members : List Tree}
    (reads : members.flatMap (Tree.lines (arena.sourceText? file)) =
      (decl.members.flatMap arena.memberParts).flatMap (Part.after arena file)) :
    (Tree.node (header.label (some (.enumeration decl)))
        ((decl.modifiers.getD []).map arena.tree ++ arena.tree decl.name :: members)).lines
          (arena.sourceText? file) =
      (arena.parts id).flatMap (Part.after arena file) := by
  have plain : ∀ ids : List NodeId,
      ids.flatMap (fun id => (arena.tree id).lines (arena.sourceText? file)) =
        (ids.flatMap arena.plainParts).flatMap (Part.after arena file) := by
    intro ids
    rw [List.flatMap_assoc]
    simp only [lines_tree sound, after_plainParts]
  rw [parts_of_const isEnum chosen, Tree.lines_node, List.cons_append, List.flatMap_cons,
    List.flatMap_append, List.flatMap_append, ← reads, ← plain, List.flatMap_append,
    List.flatMap_singleton, Part.after, linesOf_of_header found (some (.enumeration decl)),
    List.flatMap_cons, List.flatMap_map]
  simp only [List.singleton_append, List.append_assoc]

/-- What is reported of a node that is neither documentation nor an enum and gets other slots. -/
theorem lines_of_other (sound : arena.WellFormed) {header : Header} {kind : Kind}
    (atHeader : arena.header? id = some header) (found : arena.kind? id = some kind)
    (noDoc : kind.isDoc = false) (noEnum : kind ≠ Construct.enumDeclaration.kind)
    {slots : List Tree}
    (reads : slots.map (Tree.lines (arena.sourceText? file)) =
      (arena.slotsAt header).map fun slot => (arena.parts slot).flatMap (Part.after arena file)) :
    (Tree.node (header.label (arena.payloadAt? header)) slots).lines (arena.sourceText? file) =
      (arena.parts id).flatMap (Part.after arena file) := by
  have empty : (arena.parts .absent).flatMap (Part.after arena file) = [] := by
    rw [parts_of_not_has arena.not_has_absent]
    rfl
  have below : slots.flatMap (Tree.lines (arena.sourceText? file)) =
      (arena.children id).flatMap fun child =>
        (arena.parts child).flatMap (Part.after arena file) := by
    rw [children_eq_filter atHeader, flatMap_present empty]
    exact congrArg List.flatten reads
  rw [parts_of_other sound found noDoc noEnum, Tree.lines_node, below, List.flatMap_cons,
    List.flatMap_assoc, Part.after, linesOf_of_header atHeader]
  rfl

end Arena

variable {σ : Type} {resolve : Cache.Resolver σ} {file : Option String} {base : Arena}
  {root : NodeId}

namespace Progress

/-- The slot of a member gets a tree of which the same is reported, but for a new initializer. -/
theorem visitMember_reports (progress : Progress σ) (start : base.WellFormed)
    (grown : base.Extends progress.arena) (sound : progress.arena.WellFormed) (enumName : String)
    {id : NodeId} (holds : base.Holds id)
    (fits : (progress.visitMember resolve enumName id).2.arena.Fits) :
    ∃ tree, (progress.visitMember resolve enumName id).2.arena.Fills
        [(progress.visitMember resolve enumName id).1.1] [tree] ∧
      tree.lines (base.sourceText? root) =
        (base.memberParts id).flatMap (Part.after base root) := by
  let visited := (progress.visitMember resolve enumName id).1
  -- One answer never disagrees with a table, so the table can have it for every key.
  let value := (visited.stamp?.map MemberStamp.value).getD ""
  have agrees : Agrees (fun _ => value) visited.stamp?.toList := by
    intro stamp member
    simp only [value, Option.mem_toList.mp member, Option.map_some, Option.getD_some]
  have fills := progress.visitMember_fills sound enumName (holds.extends grown) fits agrees
  rw [grown.tree_slot start holds] at fills
  exact ⟨_, fills, Arena.lines_stampedMember root id start _ enumName⟩

/-- So do the slots of all members of an enum. -/
theorem visitMembers_reports (progress : Progress σ) (start : base.WellFormed)
    (grown : base.Extends progress.arena) (sound : progress.arena.WellFormed) (enumName : String)
    (ids : List NodeId) (held : ∀ id ∈ ids, base.Holds id)
    (fits : (progress.visitMembers resolve enumName ids).2.arena.Fits) :
    ∃ trees, (progress.visitMembers resolve enumName ids).2.arena.Fills
        ((progress.visitMembers resolve enumName ids).1.map Prod.fst) trees ∧
      trees.flatMap (Tree.lines (base.sourceText? root)) =
        (ids.flatMap base.memberParts).flatMap (Part.after base root) := by
  induction ids generalizing progress with
  | nil => exact ⟨[], ⟨sound, (fun _ member => by cases member), rfl⟩, rfl⟩
  | cons id ids ih =>
    obtain ⟨here, later⟩ := List.forall_mem_cons.mp held
    let first := progress.visitMember resolve enumName id
    have larger : base.Extends first.2.arena :=
      grown.trans (progress.visitMember_extends enumName id)
    have more : first.2.arena.Extends (first.2.visitMembers resolve enumName ids).2.arena :=
      first.2.visitMembers_extends enumName ids
    obtain ⟨tree, early, own⟩ := progress.visitMember_reports start grown sound enumName here
      (fits.of_extends more)
    obtain ⟨trees, late, others⟩ := ih first.2 larger early.sound later fits
    refine ⟨tree :: trees, early.cons more late, ?_⟩
    rw [List.flatMap_cons, List.flatMap_cons, List.flatMap_append, own, others]

/-- An enum is reported as before, but for the initializers of members that got a value. -/
theorem visitEnum_reports (progress : Progress σ) (start : base.WellFormed)
    (grown : base.Extends progress.arena) (sound : progress.arena.WellFormed) {id : NodeId}
    (isEnum : base.kind? id = some Construct.enumDeclaration.kind)
    (fits : (progress.visitEnum resolve file id).2.arena.Fits) :
    ∃ tree, (progress.visitEnum resolve file id).2.arena.Offers
        (progress.visitEnum resolve file id).1 tree ∧
      tree.label? = (base.tree id).label? ∧
      tree.lines (base.sourceText? root) = (base.parts id).flatMap (Part.after base root) := by
  obtain ⟨header, found, _⟩ := Arena.header_of_kind isEnum
  have has : base.Has id := Arena.has_of_header found
  have same := grown.constEnum?_eq start.closed has
  cases chosen : base.constEnum? id with
  | none =>
    obtain ⟨log, unchanged⟩ := progress.visitEnum_of_other resolve file (same.trans chosen)
    rw [unchanged]
    refine ⟨base.tree id, ⟨sound, grown.has has, grown.tree_eq start has⟩, rfl, ?_⟩
    rw [Arena.parts_of_plain isEnum chosen, Arena.after_plainParts, Arena.lines_tree start]
  | some isConst =>
    obtain ⟨decl, enumName⟩ := isConst
    obtain ⟨atDecl, _, _⟩ := Arena.constEnum?_eq_some_iff.mp chosen
    obtain ⟨_, _, inMembers⟩ := Arena.holds_of_enumDecl? start atDecl
    have stored := Arena.payload_of_enumDecl? found atDecl
    rw [progress.visitEnum_of_const resolve file (same.trans chosen)] at fits ⊢
    let said := (progress.say (.enumEntered enumName)).say
      (.constEnumStarted enumName ((progress.arena.modifiers decl.modifiers).contains .exported))
    obtain ⟨trees, fills, members⟩ := said.visitMembers_reports start grown sound enumName
      decl.members inMembers (fits.of_extends (Arena.extends_update _ _ _))
    have larger : base.Extends (said.visitMembers resolve enumName decl.members).2.arena :=
      grown.trans (said.visitMembers_extends enumName decl.members)
    refine ⟨_, fills.offers_members larger start found stored fits, ?_,
      Arena.lines_of_const root id start found isEnum chosen members⟩
    rw [Arena.label?_tree start found, stored]
    rfl

end Progress

/-- The tree that takes the place of another has its label, and it is reported as before, but for
the initializers of members that got a value. -/
theorem Stamps.reports (root : NodeId) (start : base.WellFormed) {id result : NodeId}
    {before after : Progress σ} (stamped : Stamps resolve file id before result after)
    (grown : base.Extends before.arena) (sound : before.arena.WellFormed) (has : base.Has id)
    (fits : after.arena.Fits) :
    ∃ tree, after.arena.Offers result tree ∧ tree.label? = (base.tree id).label? ∧
      tree.lines (base.sourceText? root) = (base.parts id).flatMap (Part.after base root) := by
  induction stamped using Stamps.induct (fun ids before results after =>
    base.Extends before.arena → before.arena.WellFormed → (∀ id ∈ ids, base.Has id) →
      after.arena.Fits →
        ∃ trees, after.arena.Fills results trees ∧
          trees.map (Tree.lines (base.sourceText? root)) =
            ids.map fun id => (base.parts id).flatMap (Part.after base root)) with
  | missing absent => exact absurd (grown.has has) (Arena.kind?_eq_none_iff.mp absent)
  | @doc id before kind found isDoc =>
    have atKind : base.kind? id = some kind := (grown.kind?_of_holds (.inl has)).symm.trans found
    refine ⟨base.tree id, ⟨sound, grown.has has, grown.tree_eq start has⟩, rfl, ?_⟩
    rw [Arena.parts_of_doc atKind isDoc, Arena.after_plainParts, Arena.lines_tree start]
  | @enumeration id before kind found _ isEnum =>
    have atKind : base.kind? id = some kind := (grown.kind?_of_holds (.inl has)).symm.trans found
    exact (before.say _).visitEnum_reports start grown sound (isEnum ▸ atKind) fits
  | @other id before after kind results found noDoc noEnum below ih =>
    have atKind : base.kind? id = some kind := (grown.kind?_of_holds (.inl has)).symm.trans found
    obtain ⟨header, atHeader, _⟩ := Arena.header_of_kind atKind
    have children : before.arena.children id = base.children id := grown.children_eq start has
    have count := below.length_eq
    rw [children] at ih count
    obtain ⟨trees, fills, reads⟩ := ih grown sound (fun child member => start.child_has member)
      (fits.of_extends (after.updateChildren_extends id results))
    rw [← fills.reads, List.map_map, Arena.children_eq_filter atHeader] at reads
    have empty : (after.arena.tree .absent).lines (base.sourceText? root) =
        (base.parts .absent).flatMap (Part.after base root) := by
      rw [Arena.tree_absent, Tree.lines, Arena.parts_of_not_has base.not_has_absent]
      rfl
    have filling := Arena.map_fillPresent empty reads
    rw [← Function.comp_def, ← List.map_map] at filling
    refine ⟨_, fills.offers_children (grown.trans below.extends) start atHeader count fits, ?_,
      Arena.lines_of_other root id start atHeader atKind noDoc noEnum filling⟩
    rw [Arena.label?_tree start atHeader]
    rfl
  | nil =>
    rename_i _ sound _ _
    exact ⟨[], ⟨sound, (fun _ member => by cases member), rfl⟩, rfl⟩
  | @cons id ids before between after result results first others ihFirst ihOthers =>
    rename_i grown sound has fits
    obtain ⟨here, later⟩ := List.forall_mem_cons.mp has
    obtain ⟨tree, early, _, own⟩ := ihFirst grown sound here (fits.of_extends others.extends)
    obtain ⟨trees, late, rest⟩ := ihOthers (grown.trans first.extends) early.sound later fits
    refine ⟨tree :: trees, early.fills.cons others.extends late, ?_⟩
    rw [List.map_cons, List.map_cons, own, rest]

/-- Below any root, also where there is no node. -/
theorem Stamps.reports_root {result : NodeId} {before after : Progress σ}
    (stamped : Stamps resolve file root before result after) (sound : before.arena.WellFormed)
    (fits : after.arena.Fits) :
    after.arena.Reports result
      ((before.arena.parts root).flatMap (Part.after before.arena root)) := by
  by_cases has : before.arena.Has root
  · obtain ⟨tree, offers, label, lines⟩ :=
      stamped.reports root sound (.refl _) sound has fits
    have text : after.arena.sourceText? result = before.arena.sourceText? root := by
      rw [← Arena.sourceText?_tree offers.sound, offers.reads, label, Arena.sourceText?_tree sound]
    rw [← lines, ← offers.reads, ← text, Arena.lines_tree offers.sound]
    exact Arena.reports offers.sound result
  · obtain ⟨stays, rfl⟩ := stamped.unique (.missing (Arena.kind?_eq_none_iff.mpr has))
    have reports := Arena.reports sound root
    rw [Arena.preorder_of_not_has has] at reports
    rw [stays, Arena.parts_of_not_has has]
    exact reports

/-- The stamps of a record are those of the members with simple names, in order. -/
theorem Arena.Describes.simpleMembers {arena : Arena} {id : NodeId} {record : EnumStampRecord}
    (describes : arena.Describes id record) :
    (arena.simpleMembers id).filterMap arena.memberName? =
      record.members.map MemberStamp.member := by
  obtain ⟨decl, atDecl, names, _⟩ := describes.members
  rw [Arena.simpleMembers, atDecl, List.filterMap_filter, names]
  apply List.filterMap_congr
  intro member _
  cases arena.memberName? member <;> rfl

/-- A walk below any root of a well-formed arena, with any cache, leaves what is reported of the
tree as it was, except that in place of the nodes of the initializer of a member that got a value,
if there were any, one string without text is reported. These are the members on record, in
order. -/
theorem Stamper.stamp_reports (resolve : Cache.Resolver σ) (stamper : Stamper σ) (mode : Mode)
    {arena : Arena} (sound : arena.WellFormed) (root : NodeId) :
    ∃ walked, stamper.stamp resolve mode arena root = some walked ∧
      (arena.parts root).flatMap (Part.nodes arena) = arena.preorder root ∧
      (arena.parts root).filterMap Part.member? =
        (walked.records.flatMap fun record => arena.simpleMembers record.source) ∧
      (∀ record ∈ walked.records,
        (arena.simpleMembers record.source).filterMap arena.memberName? =
          record.members.map MemberStamp.member) ∧
      arena.Reports root ((arena.parts root).flatMap (Part.before arena root)) ∧
      (walked.arena.Fits →
        walked.arena.Reports walked.root
          ((arena.parts root).flatMap (Part.after arena root))) := by
  obtain ⟨result, final, stamped, stamps⟩ := stamper.exists_stamp resolve mode sound root
  obtain ⟨records, all, sources, described⟩ := stamped.declares_root sound
  have same : final.records = records := all
  rw [List.flatMap_singleton, ← same] at sources
  have declared : final.records.map EnumStampRecord.source = arena.declared root := sources
  refine ⟨_, stamps, Arena.nodes_parts sound root, ?_, ?_, ?_, stamped.reports_root sound⟩
  · rw [Arena.members_parts sound root, ← declared, List.flatMap_map]
    rfl
  · intro record member
    exact (described record (same ▸ member)).simpleMembers
  · have reports := Arena.reports sound root
    rw [← Arena.nodes_parts sound root, List.flatMap_assoc] at reports
    exact reports

/-- The file with the text `const enum E { A = 1 }`. -/
def Arena.oneMember : Arena :=
  { empty with
    nodes :=
      #[⟨Token.constKeyword.kind, 0, 0, 5, Header.noPlace⟩,
        ⟨Token.identifier.kind, 0, 11, 12, 0⟩,
        ⟨Token.identifier.kind, 0, 15, 16, 1⟩,
        ⟨Token.numericLiteral.kind, 0, 19, 20, 0⟩,
        ⟨Construct.enumMember.kind, 0, 15, 20, 0⟩,
        ⟨Construct.enumDeclaration.kind, 0, 0, 22, 0⟩,
        ⟨Construct.sourceFile.kind, 0, 0, 22, 0⟩]
    origins := .replicate 7 .absent
    identifiers := #["E", "A"]
    literals := #["1"]
    enumMembers := #[⟨.ofPosition 2, .ofPosition 3⟩]
    enums := #[⟨some [.ofPosition 0], .ofPosition 1, [.ofPosition 4]⟩]
    sourceFiles := #[⟨"e.ts", "const enum E { A = 1 }", [.ofPosition 5]⟩] }

/-- Of the file the same is reported before and after, but for the number. -/
theorem Stamper.stamp_reports_oneMember :
    Arena.oneMember.WellFormed ∧
      ∃ walked,
        (create default CallLog.empty).1.stamp CallLog.resolve .file Arena.oneMember
          (.ofPosition 6) = some walked ∧
        Arena.oneMember.Reports (.ofPosition 6)
          [("SourceFile", "const enum E { A = 1 }"),
            ("EnumDeclaration", "const enum E { A = 1 }"), ("ConstKeyword", "const"),
            ("Identifier", "E"), ("EnumMember", "A = 1"), ("Identifier", "A"),
            ("NumericLiteral", "1")] ∧
        walked.arena.Reports walked.root
          [("SourceFile", "const enum E { A = 1 }"),
            ("EnumDeclaration", "const enum E { A = 1 }"), ("ConstKeyword", "const"),
            ("Identifier", "E"), ("EnumMember", "A = 1"), ("Identifier", "A"),
            ("StringLiteral", "<no text available>")] := by
  have sound : Arena.oneMember.WellFormed := by decide
  refine ⟨sound, ?_⟩
  obtain ⟨walked, stamps, _, _, _, before, after⟩ := stamp_reports CallLog.resolve
    (create default CallLog.empty).1 .file sound (.ofPosition 6)
  have small : ((create default CallLog.empty).1.stamp CallLog.resolve .file Arena.oneMember
      (.ofPosition 6)).all (fun walked => decide walked.arena.Fits) = true := by decide +kernel
  rw [stamps, Option.all_some, decide_eq_true_eq] at small
  refine ⟨walked, stamps, ?_, ?_⟩
  · convert before using 1
    decide +kernel
  · convert after small using 1
    decide +kernel

end EnumStamp
