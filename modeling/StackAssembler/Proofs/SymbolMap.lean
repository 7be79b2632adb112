import StackAssembler.Proofs.LineMap
import StackAssembler.Proofs.SymbolText

/-!
# Symbol maps of programs

The symbol map of a program loses nothing of it: in an assembled program no name is bound twice, so
every label has its own entry. Together with the reading of its text this is `symbolMap_survives`.
-/

namespace StackAssembler

namespace SymbolMap

/-- A symbol map says of an image how long it is, what its labels are and where its words come
from. -/
structure Describes (m : SymbolMap) (image : Image) : Prop where
  words : m.words = image.size
  /-- Every label of the table is there, once. -/
  labels : m.labels.entries.Perm image.labels.entries
  /-- A name is bound to the address that it resolves to, or not at all. -/
  addresses : ∀ name address,
    m.labels.find? name = some address ↔ image.labels.resolve name = .ok address
  /-- Every address has its line, in order. -/
  lines : m.lines.map (fun entry => (entry.address, some entry.line)) =
    (List.range image.size).map fun i => (i, image.origin? i)

end SymbolMap

lemma Image.describes_symbols {image : Image} (h : image.labels.names.Nodup) :
    image.symbols.Describes image where
  words := rfl
  labels := AddressMap.perm_ofList h
  addresses := by
    intro name address
    have hresolve : image.labels.resolve name = .ok address ↔
        image.labels.find? name = some address := by
      rw [LabelTable.resolve]
      cases image.labels.find? name <;> simp
    rw [hresolve, AddressMap.find?, LabelTable.find?, Option.map_eq_some_iff,
      Option.map_eq_some_iff]
    refine exists_congr fun label => and_congr_left fun _ => ?_
    have hperm : image.symbols.labels.entries.Perm image.labels.entries := AddressMap.perm_ofList h
    rw [find?_key_eq_some_iff image.symbols.labels.nodup_names, find?_key_eq_some_iff h,
      hperm.mem_iff]
  lines := by
    refine List.ext_getElem? fun i => ?_
    by_cases hi : i < image.cells.size
    · simp [symbols, origin?, size, hi]
    · simp [symbols, size, Nat.not_lt.mp hi]

lemma nodup_names_of_assemble {config : Config} {source : String} {image : Image}
    (h : assemble config source = .ok image) : image.labels.names.Nodup := by
  obtain ⟨-, hwell, hlays⟩ := assemble_eq_ok_iff_lays.mp h
  rw [hlays.names_labels]
  exact hwell.nodup

lemma nodup_names_of_assembleExpansion {config : Config} {x : Expansion} {image : Image}
    (h : assembleExpansion config x = .ok image) : image.labels.names.Nodup := by
  obtain ⟨raw, hraw, rfl⟩ := assembleExpansion_eq_ok_iff.mp h
  show raw.labels.names.Nodup
  exact nodup_names_of_assemble hraw

/-- Symbol maps survive their text. A symbol map whose numbers are counts is read back from its
text, whatever its names are; every symbol map that is read is one of these, so a text that was read
and written again stays as it is. The symbol map of every assembled program says of it how long it
is, what its labels are, none lost, and where its words come from. -/
theorem symbolMap_survives :
    (∀ m : SymbolMap, m.Fits → SymbolMap.parse? m.render = some m) ∧
    (∀ text m, SymbolMap.parse? text = some m → m.Fits) ∧
    (∀ text text', (SymbolMap.parse? text).map SymbolMap.render = some text' →
      (SymbolMap.parse? text').map SymbolMap.render = some text') ∧
    ∀ config image, (∃ source, assemble config source = .ok image) ∨
        (∃ x, assembleExpansion config x = .ok image) →
      image.symbols.Describes image := by
  refine ⟨fun m => SymbolMap.parse?_render, fun text m => SymbolMap.fits_of_parse?, ?_, ?_⟩
  · intro text text' h
    obtain ⟨m, hm, rfl⟩ := Option.map_eq_some_iff.mp h
    rw [SymbolMap.parse?_render (SymbolMap.fits_of_parse? hm)]
    rfl
  · rintro config image (⟨source, h⟩ | ⟨x, h⟩)
    · exact Image.describes_symbols (nodup_names_of_assemble h)
    · exact Image.describes_symbols (nodup_names_of_assembleExpansion h)

/-- Names with a quote, a backslash and control characters, and the largest count; a text with
white space, records without keys and a name given twice in two spellings; a program with a label
behind its last word. -/
theorem symbolMap_survives_escapes :
    ∃ (labels : AddressMap) (m : SymbolMap) (text text' : String) (image : Image),
      labels.entries = [⟨"", 7⟩, ⟨"\x07\n", 0⟩, ⟨"a\\\"b", 1⟩] ∧
      m = ⟨0xFFFFFFFFFFFFFFFF, labels, [⟨1, 2⟩]⟩ ∧ m.Fits ∧ SymbolMap.parse? m.render = some m ∧
      text = " [1, \x7b\"b\\u000A\": 2, \"b\\n\":1\x7d, []]" ∧
      text' = "\x7b\"words\":1,\"labels\":\x7b\"b\\n\":1\x7d,\"lines\":[]\x7d" ∧
      (SymbolMap.parse? text).map SymbolMap.render = some text' ∧
      (SymbolMap.parse? text').map SymbolMap.render = some text' ∧
      assemble ⟨4, 4, .keep⟩ "b:\nJMP a\na:" = .ok image ∧ image.symbols.Describes image := by
  obtain ⟨hback, -, hagain, hdescribes⟩ := symbolMap_survives
  let labels : AddressMap :=
    ⟨[⟨"", 7⟩, ⟨"\x07\n", 0⟩, ⟨"a\\\"b", 1⟩], by decide⟩
  let m : SymbolMap := ⟨0xFFFFFFFFFFFFFFFF, labels, [⟨1, 2⟩]⟩
  have hfits : m.Fits := by
    refine ⟨by decide, ?_, ?_⟩
    · simp [m, labels, Text.countLimit]
    · simp [m, LineEntry.Fits, Text.countLimit]
  have htext : (SymbolMap.parse? " [1, \x7b\"b\\u000A\": 2, \"b\\n\":1\x7d, []]").map
      SymbolMap.render =
        some "\x7b\"words\":1,\"labels\":\x7b\"b\\n\":1\x7d,\"lines\":[]\x7d" := by
    decide +kernel
  have himage : assemble ⟨4, 4, .keep⟩ "b:\nJMP a\na:" =
      .ok ⟨#[⟨0x6001, 2⟩], ⟨4, [⟨"b", 0⟩, ⟨"a", 1⟩]⟩⟩ := by
    decide +kernel
  exact ⟨labels, m, _, _, _, rfl, rfl, hfits, hback m hfits, rfl, rfl, htext, hagain _ _ htext,
    himage, hdescribes _ _ (Or.inl ⟨_, himage⟩)⟩

end StackAssembler
