import Descent.Proofs.Json.Document
import Descent.Proofs.NameMap
import Descent.Registry.Text

/-!
# Registries are read back

The text of a registry is read as the same registry. Names and the targets of references may be any
texts, the order may repeat names, and order and shapes need not speak of the same productions: the
reader finds each text behind its escapes, each shape behind its word, and puts the shapes back into
a map under their names.
-/

namespace Descent

open Json

/-! ## Access to documents -/

namespace Json.Document

@[simp] theorem text_ofText (text : String) : (ofText text).text? = some text :=
  Quoted.decode_encode text

theorem texts_ofText (texts : List String) : (texts.map ofText).mapM text? = some texts := by
  have each : text? ∘ ofText = fun text => pure text := funext text_ofText
  rw [List.mapM_map, each, List.mapM_pure]
  simp

/-- Members have the texts that their keys are written for. -/
theorem members_encoded (members : List (String × Document)) :
    members? (members.map fun (name, value) => (Quoted.encode name, value)) = some members := by
  have each : ((fun (raw, value) => do return (← Quoted.decode? raw, value) :
      String × Document → Option (String × Document)) ∘
        fun (name, value) => (Quoted.encode name, value)) = fun member => pure member := by
    funext ⟨name, value⟩
    simp
  rw [members?, List.mapM_map, each, List.mapM_pure]
  simp

end Json.Document

/-! ## Shapes -/

namespace Shape

/-- The two members of a reference are found under their keys. -/
theorem members_reference (word name : Document) :
    Document.members? [("shape", word), ("name", name)] =
      some [("shape", word), ("name", name)] :=
  Document.members_encoded [("shape", word), ("name", name)]

theorem ofDocument_toDocument (shape : Shape) : ofDocument? shape.toDocument = some shape := by
  cases shape with
  | reference name =>
    have word : Document.single? "shape" [("shape", .ofText "reference"), ("name", .ofText name)] =
        some (some (.ofText "reference")) := rfl
    have target : Document.single? "name" [("shape", .ofText "reference"), ("name", .ofText name)] =
        some (some (.ofText name)) := rfl
    have read : word? (.ofText "reference") = some "reference" := rfl
    simp [toDocument, ofDocument?, members_reference, word, target, read, ofWord?]
  | _ => rfl

theorem textual_toDocument (shape : Shape) : shape.toDocument.Textual := by
  have word : ∃ text, "shape" = Quoted.encode text := ⟨"shape", rfl⟩
  have target : ∃ text, "name" = Quoted.encode text := ⟨"name", rfl⟩
  cases shape with
  | reference name =>
    refine .object ?_ ?_
    · simp [word, target]
    · simp [Document.Textual.text]
  | _ =>
    refine .object ?_ ?_
    · simp [word]
    · simp [Document.Textual.text]

end Shape

namespace Registry

/-! ## Registries -/

/-- The shape of a production, or the lack of one, is found in its document. -/
theorem shapeOf_shapeDocument (shape : Option Shape) :
    shapeOf? (shapeDocument shape) = some shape := by
  cases shape with
  | none => rfl
  | some shape =>
    have read := shape.ofDocument_toDocument
    cases shape <;> simp_all [shapeDocument, Shape.toDocument, shapeOf?]

/-- Shapes are put into the map one after the other. -/
theorem foldlM_shapes (map : NameMap (Option Shape)) (shapes : NamedEntries (Option Shape)) :
    (shapes.map fun (name, shape) => (name, shapeDocument shape)).foldlM (fun map member => do
      return map.insert member.1 (← shapeOf? member.2)) map = some (map.insertAll shapes) := by
  induction shapes generalizing map with
  | nil => rfl
  | cons entry shapes ih =>
    rw [List.map_cons, List.foldlM_cons, shapeOf_shapeDocument]
    exact ih (map.insert entry.1 entry.2)

theorem shapesOf_encoded (shapes : NameMap (Option Shape)) :
    shapesOf? (.object (shapes.entries.map fun (name, shape) =>
      (Quoted.encode name, shapeDocument shape))) = some shapes := by
  have members := Document.members_encoded
    (shapes.entries.map fun (name, shape) => (name, shapeDocument shape))
  have filled := foldlM_shapes .empty shapes.entries
  rw [List.map_map] at members
  rw [NameMap.insertAll_entries] at filled
  simp only [shapesOf?]
  exact (congrArg (Option.bind · _) members).trans filled

theorem orderOf_texts (order : List String) :
    orderOf? (.array (order.map .ofText)) = some order :=
  Document.texts_ofText order

/-- A registry is described by its document. -/
theorem ofDocument_toDocument (registry : Registry) :
    ofDocument? registry.toDocument = some registry := by
  obtain ⟨order, shapes⟩ := registry
  have members (first second : Document) :
      Document.members? [("order", first), ("schemas", second)] =
        some [("order", first), ("schemas", second)] :=
    Document.members_encoded [("order", first), ("schemas", second)]
  have first (first second : Document) :
      Document.single? "order" [("order", first), ("schemas", second)] = some (some first) := rfl
  have second (first second : Document) :
      Document.single? "schemas" [("order", first), ("schemas", second)] = some (some second) := rfl
  simp [toDocument, ofDocument?, members, first, second, orderOf_texts, shapesOf_encoded]

theorem textual_shapeDocument (shape : Option Shape) : (shapeDocument shape).Textual := by
  cases shape with
  | none => exact .null
  | some shape => exact shape.textual_toDocument

theorem textual_toDocument (registry : Registry) : registry.toDocument.Textual := by
  have order : ∃ text, "order" = Quoted.encode text := ⟨"order", rfl⟩
  have schemas : ∃ text, "schemas" = Quoted.encode text := ⟨"schemas", rfl⟩
  have names : (Document.array (registry.order.map .ofText)).Textual := by
    refine .array (List.forall_mem_map.mpr ?_)
    intro name _
    exact .text name
  have shapes : (Document.object (registry.shapes.entries.map fun (name, shape) =>
      (Quoted.encode name, shapeDocument shape))).Textual := by
    refine .object (List.forall_mem_map.mpr ?_) (List.forall_mem_map.mpr ?_)
    · intro entry _
      exact ⟨entry.1, rfl⟩
    · intro entry _
      exact textual_shapeDocument entry.2
  refine .object ?_ ?_
  · simp [order, schemas]
  · simp [names, shapes]

/-- The text of a registry is read as the same registry. -/
theorem parse_rendered (registry : Registry) : parse? registry.render = some registry := by
  rw [parse?, render, registry.textual_toDocument.parse_written]
  exact registry.ofDocument_toDocument

end Registry

end Descent
