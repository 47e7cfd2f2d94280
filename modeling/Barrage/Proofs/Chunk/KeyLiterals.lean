import Barrage.Proofs.Chunk.RefusedNames
import Barrage.Proofs.Chunk.UnitLines

/-!
# Keys in exported definitions

The key of a lookup is any text, and it is the only text of an author that stands in a chunk. Between printing
and reading it, the body of its unit is taken apart into lines and indented, and the definition is put among
others. No literal holds a character that would end its line, and every quote in it stands behind a backslash
that is not itself escaped; so the lines of the lookups come through as they were printed, and are cut into the
same tokens for all keys, with the key in one of them.

## Main definitions

* `Text.opensEscape` — whether some characters leave an escape open
* `Text.Contained` — characters that end neither a literal nor a line

## Main results

* `Text.contained_content` — the content of every literal is contained
* `Text.literal_injective` — distinct keys have distinct literals
* `Hoisted.cuts_print` — the tokens of a lookup
* `RecordedUnit.definition_lookups` — the lookups of a unit stand in its definition as they were printed
-/

namespace Barrage

namespace Text

/-! ### Contents of literals -/

/-- Whether some characters leave an escape open: a backslash opens one unless it is itself escaped. -/
def opensEscape (cs : List Char) : Bool := cs.foldl (fun opened c => c = '\\' && !opened) false

/-- Characters that end neither a literal nor a line: they hold no line break, every quote among them is
escaped, and they leave no escape open. -/
structure Contained (cs : List Char) : Prop where
  feed : '\n' ∉ cs
  carriage : '\r' ∉ cs
  quotes : ∀ before after, cs = before ++ '"' :: after → opensEscape before = true
  closed : opensEscape cs = false

variable {cs ds : List Char}

theorem opensEscape_append (h : opensEscape cs = false) (ds : List Char) :
    opensEscape (cs ++ ds) = opensEscape ds := by
  unfold opensEscape at h ⊢
  rw [List.foldl_append, h]

/-- Characters without a quote among them. -/
theorem Contained.of_notMem (hfeed : '\n' ∉ cs) (hcarriage : '\r' ∉ cs) (hquote : '"' ∉ cs)
    (hclosed : opensEscape cs = false) : Contained cs where
  feed := hfeed
  carriage := hcarriage
  quotes before after heq := absurd (by simp [heq]) hquote
  closed := hclosed

theorem Contained.append (h : Contained cs) (h' : Contained ds) : Contained (cs ++ ds) where
  feed := by simpa using ⟨h.feed, h'.feed⟩
  carriage := by simpa using ⟨h.carriage, h'.carriage⟩
  quotes before after heq := by
    rcases List.append_eq_append_iff.1 heq with ⟨mid, rfl, hds⟩ | ⟨mid, hcs, hmid⟩
    · rw [opensEscape_append h.closed]
      exact h'.quotes mid after hds
    · cases mid with
      | nil =>
        rw [List.append_nil] at hcs
        rw [← hcs, ← List.append_nil cs, opensEscape_append h.closed]
        exact h'.quotes [] after hmid.symm
      | cons c mid =>
        obtain ⟨rfl, -⟩ := List.cons.inj hmid
        exact h.quotes before mid hcs
  closed := by rw [opensEscape_append h.closed, h'.closed]

/-- The escape of a small code point. -/
theorem contained_fourHex {n : Nat} (h : n < 256) : Contained ('\\' :: 'u' :: fourHex n) := by
  have hall : ∀ m < 256, '\n' ∉ '\\' :: 'u' :: fourHex m ∧ '\r' ∉ '\\' :: 'u' :: fourHex m ∧
      '"' ∉ '\\' :: 'u' :: fourHex m ∧ opensEscape ('\\' :: 'u' :: fourHex m) = false := by
    decide +kernel
  obtain ⟨hfeed, hcarriage, hquote, hclosed⟩ := hall n h
  exact .of_notMem hfeed hcarriage hquote hclosed

/-- A quote behind a backslash. -/
theorem contained_quote : Contained ['\\', '"'] where
  feed := by decide
  carriage := by decide
  quotes before after heq := by
    match before, heq with
    | [_], heq =>
      obtain ⟨rfl, -⟩ := List.cons.inj heq
      rfl
    | _ :: _ :: before, heq =>
      have hlength := congrArg List.length heq
      simp at hlength
  closed := by decide

theorem contained_literalChar (c : Char) : Contained (literalChar c) := by
  unfold literalChar
  split
  · exact contained_quote
  case h_6 hquote hslash hfeed _ hreturn =>
    split
    · rename_i hcontrol
      exact contained_fourHex (by simp [isControl] at hcontrol; omega)
    · have hclosed : opensEscape [c] = false := by
        simpa [opensEscape] using fun heq => hslash heq
      exact .of_notMem (by simpa using fun heq => hfeed heq.symm) (by simpa using fun heq => hreturn heq.symm)
        (by simpa using fun heq => hquote heq.symm) hclosed
  all_goals exact .of_notMem (by decide) (by decide) (by decide) (by decide)

/-- The content of a literal is contained, whatever the key. -/
theorem contained_content (key : List Char) : Contained (key.flatMap literalChar) := by
  induction key with
  | nil => exact .of_notMem (by simp) (by simp) (by simp) rfl
  | cons c key ih =>
    rw [List.flatMap_cons]
    exact (contained_literalChar c).append ih

/-- Distinct keys have distinct literals. -/
theorem literal_injective : Function.Injective literal := by
  intro key key' heq
  have htext := congrArg String.toList heq
  rw [toList_literal, toList_literal, List.cons.injEq] at htext
  have hread (k : String) : ChunkToken.content? [] [] (k.toList.flatMap literalChar ++ ['"'] ++ [' ']) =
      some (k.toList, [' ']) := by
    simpa using ChunkToken.content?_literal [] [] k.toList (by decide : ' ' ≠ '"') []
  have hboth := hread key
  rw [htext.2, hread key', Option.some.injEq, Prod.mk.injEq] at hboth
  exact String.toList_inj.1 hboth.1.symm

/-- Lines in front of a text are its first lines. -/
theorem lines_join {ts : List String} (h : ∀ t ∈ ts, IsLine t) (s : String) :
    lines (String.join (ts.map (· ++ "\n")) ++ s) = ts ++ lines s := by
  induction ts with
  | nil => simp
  | cons t ts ih =>
    obtain ⟨ht, hts⟩ := List.forall_mem_cons.1 h
    rw [List.map_cons, String.join_cons, String.append_assoc, lines_cons ht, ih hts, List.cons_append]

end Text

open ChunkToken

/-! ### Lookups -/

/-- The printed lookup of an object is cut into the same tokens for all keys, but for the one that is the key,
whatever stands around it. -/
theorem Hoisted.cuts_print {h : Hoisted} (hline : h.line.Readable) (whole : List Char) (before : Bool)
    (rest : List Char) : Cuts whole before (h.print.toList ++ rest)
      [.word "let", .word h.name, .symbol .assign, .word ("get_" ++ h.object.kind), .symbol .opening,
        .text h.object.key, .symbol .closing, .semicolon] false rest := by
  have hlookup : Cuts whole before (h.line.toText.toList ++ '\n' :: rest) h.line.tokens false ('\n' :: rest) :=
    Line.cuts hline _
  have hfeed : Cuts whole false ('\n' :: rest) [] false rest := cuts_blank rfl rest
  have hall := hlookup.trans hfeed
  rw [h.print_eq, String.toList_append, List.append_assoc]
  exact hall

namespace Expr

variable {e : Expr} {h : Hoisted}

theorem readable_of_mem_lookups (hh : h ∈ e.lookups) : h.line.Readable := by
  have hlookups : e.linear.hoisted = e.lookups := by rw [linear_eq]; rfl
  exact readable_lookups e _ (List.mem_map_of_mem (hlookups ▸ hh))

/-- A printed unit opens with its lookups, each on a line of its own. -/
theorem exists_printUnit {body : String} (hbody : e.printUnit = .ok body) :
    ∃ tail, body = String.join (e.lookups.map Hoisted.print) ++ tail := by
  have hprint : e.linear.print = .ok body := hbody
  have hlookups : e.linear.hoisted = e.lookups := by rw [linear_eq]; rfl
  unfold Linear.print at hprint
  obtain ⟨bindings, -, hprint⟩ := Except.bind_eq_ok_iff.1 hprint
  obtain ⟨result, -, hprint⟩ := Except.bind_eq_ok_iff.1 hprint
  cases hprint
  rw [hlookups]
  exact ⟨String.join bindings ++ "return " ++ result ++ ";", by simp only [String.append_assoc]⟩

end Expr

/-- The lookups of a unit stand in its definition as they were printed, behind the parameters. -/
theorem RecordedUnit.definition_lookups {e : Expr} {unit : RecordedUnit} (h : e.printUnit = .ok unit.body) :
    ∃ tail, unit.body = String.join (e.lookups.map Hoisted.print) ++ tail ∧
      unit.definition = "// " ++ unit.signature.text ++ "\nfn " ++ unit.name ++ "(" ++
        ", ".intercalate (unit.params.map (·.name)) ++ ") \x7b\n" ++
          String.join (e.lookups.map fun known => "    " ++ known.print) ++
            String.join ((Text.lines tail).map fun line => "    " ++ line ++ "\n") ++ "\x7d" := by
  obtain ⟨tail, hbody⟩ := Expr.exists_printUnit h
  refine ⟨tail, hbody, ?_⟩
  have hprint : e.lookups.map Hoisted.print = (e.lookups.map fun known => known.line.toText).map (· ++ "\n") := by
    rw [List.map_map]
    exact List.map_congr_left fun known _ => known.print_eq
  have hlines : Text.lines unit.body = e.lookups.map (fun known => known.line.toText) ++ Text.lines tail := by
    rw [hbody, hprint]
    exact Text.lines_join (List.forall_mem_map.2 fun known hknown =>
      Line.isLine (Expr.readable_of_mem_lookups hknown)) tail
  have hindented : (e.lookups.map fun known => known.line.toText).map (fun line => "    " ++ line ++ "\n") =
      e.lookups.map fun known => "    " ++ known.print := by
    rw [List.map_map]
    refine List.map_congr_left fun known _ => ?_
    rw [Function.comp_apply, known.print_eq, String.append_assoc]
  unfold definition
  rw [hlines, List.map_append, hindented]
  simp only [String.join_append, String.append_assoc]

end Barrage
