import EnumStamp.Arena.Snapshot
import EnumStamp.Proofs.Json.Record

set_option autoImplicit false

namespace EnumStamp

open Json (Codec Delimited)
open Json.Codec (lawful_word16 lawful_word32 lawful_text)

theorem Json.Codec.Lawful.array {α : Type} {codec : Codec α} (lawful : codec.Lawful) :
    codec.array.Lawful :=
  lawful.list.map fun _ => rfl

theorem NodeId.lawful_codec : NodeId.codec.Lawful :=
  lawful_word32.map fun _ => rfl

theorem NodeId.lawful_listCodec : NodeId.listCodec.Lawful :=
  Json.Fields.Lawful.record lawful_codec.list

/-- Lists of nodes are objects, so one that may be missing is told from null. -/
theorem NodeId.lawful_optionalListCodec : (Codec.optional NodeId.listCodec).Lawful := by
  apply Codec.Lawful.optional lawful_listCodec
  intro nodes rest tail same
  have first : '{' = 'n' := (List.cons.inj same).1
  revert first
  decide

theorem Header.lawful_codec : Header.codec.Lawful := by
  apply Codec.Lawful.map _ fun _ => rfl
  apply Json.Fields.Lawful.record
  exact ⟨lawful_word16, by decide, lawful_word16, by decide, lawful_word32, by decide,
    lawful_word32, by decide, lawful_word32⟩

theorem SourceFile.lawful_codec : SourceFile.codec.Lawful := by
  apply Codec.Lawful.map _ fun _ => rfl
  apply Json.Fields.Lawful.record
  exact ⟨lawful_text, by decide, lawful_text, by decide, NodeId.lawful_listCodec⟩

theorem EnumDecl.lawful_codec : EnumDecl.codec.Lawful := by
  apply Codec.Lawful.map _ fun _ => rfl
  apply Json.Fields.Lawful.record
  exact ⟨NodeId.lawful_optionalListCodec, by decide, NodeId.lawful_codec, by decide,
    NodeId.lawful_listCodec⟩

theorem EnumMember.lawful_codec : EnumMember.codec.Lawful := by
  apply Codec.Lawful.map _ fun _ => rfl
  apply Json.Fields.Lawful.record
  exact ⟨NodeId.lawful_codec, by decide, NodeId.lawful_codec⟩

theorem ModuleDecl.lawful_codec : ModuleDecl.codec.Lawful := by
  apply Codec.Lawful.map _ fun _ => rfl
  apply Json.Fields.Lawful.record
  exact ⟨NodeId.lawful_optionalListCodec, by decide, NodeId.lawful_codec, by decide,
    NodeId.lawful_codec⟩

theorem DocComment.lawful_codec : DocComment.codec.Lawful := by
  apply Codec.Lawful.map _ fun _ => rfl
  apply Json.Fields.Lawful.record
  exact ⟨lawful_text, by decide, NodeId.lawful_listCodec⟩

namespace Arena

/-- The pools and the two tables of an arena have different names, and each of them comes back. -/
theorem lawful_codec : Arena.codec.Lawful := by
  have texts (name : String) : (Codec.record (.last name .text)).Lawful :=
    Json.Fields.Lawful.record lawful_text
  have ids (name : String) : (Codec.record (.last name NodeId.codec)).Lawful :=
    Json.Fields.Lawful.record NodeId.lawful_codec
  have lists (name : String) : (Codec.record (.last name NodeId.listCodec)).Lawful :=
    Json.Fields.Lawful.record NodeId.lawful_listCodec
  apply Codec.Lawful.map _ fun _ => rfl
  apply Json.Fields.Lawful.record
  exact ⟨Header.lawful_codec.array, by decide, (ids _).array, by decide, (texts _).array, by decide,
    (texts _).array, by decide, SourceFile.lawful_codec.array, by decide,
    EnumDecl.lawful_codec.array, by decide, EnumMember.lawful_codec.array, by decide,
    (ids _).array, by decide, ModuleDecl.lawful_codec.array, by decide,
    DocComment.lawful_codec.array, by decide, (lists _).array⟩

/-- Every arena is restored from its snapshot, so the restored arena has the same snapshot again,
and two arenas have one snapshot only if they are the same. -/
theorem restore_snapshot (arena other : Arena) :
    restore arena.snapshot = .ok arena ∧
      (restore arena.snapshot).map snapshot = .ok arena.snapshot ∧
        (arena.snapshot = other.snapshot ↔ arena = other) := by
  have back (arena : Arena) : restore arena.snapshot = .ok arena :=
    lawful_codec.decode_encode arena
  refine ⟨back arena, ?_, ?_, congrArg snapshot⟩
  · rw [back arena]
    rfl
  · intro same
    have restored := back arena
    rw [same, back other] at restored
    exact (Except.ok.inj restored).symm

end Arena

end EnumStamp
