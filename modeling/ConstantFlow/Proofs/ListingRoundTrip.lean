import ConstantFlow.Analyzer
import ConstantFlow.History.Listing
import ConstantFlow.Proofs.EscapedText
import ConstantFlow.Proofs.LocationText
import Mathlib

/-! Listings can be read back. Every line is read as the line it was written for, the text of a listing splits into
its lines, and the lines of a function, of a variable and of an entry open differently. So a listing tells the records
of the histories in it, and also which functions and histories these are. -/

namespace ConstantFlow
namespace Listing

/-! ### Facts and entries -/

theorem factText_written {k : Kind} (f : Fact k.Value) :
    History.factText k f = History.factText .text (f.written k) := by
  cases f <;> rfl

theorem entryLine_written {k : Kind} (e : Entry k) : History.entryLine e = History.entryLine e.written := by
  unfold History.entryLine
  rw [factText_written]
  rfl

/-- The backslash that keeps a constant from reading as the unresolved mark goes unread. -/
theorem read?_marked :
    Escape.read? ("\\" ++ History.unresolvedMark).toList = Escape.read? History.unresolvedMark.toList :=
  (Escape.read?_letter (by decide) _).trans (Escape.read?_plain (by decide) _).symm

theorem factFrom?_factText (f : Fact String) : factFrom? (History.factText .text f).toList = some f := by
  cases f with
  | unresolved => rfl
  | resolved value =>
      have hread := Escape.read?_text value
      show factFrom? (History.valueText .text value).toList = _
      have hformat : Escape.text (Kind.format .text value) = Escape.text value := rfl
      rw [History.valueText, hformat, factFrom?]
      split
      · rename_i heq
        rw [heq] at hread ⊢
        rw [if_neg (by decide), read?_marked, hread]
        simp
      · rename_i hne
        rw [if_neg fun heq => hne (String.toList_inj.1 heq), hread]
        simp

theorem cut?_append {m : Char} {before : List Char} (h : m ∉ before) (mark after : List Char) :
    cut? (m :: mark) (before ++ (m :: mark ++ after)) = some (before, after) := by
  induction before with
  | nil =>
      have hmark : (m :: mark).isPrefixOf? (m :: (mark ++ after)) = some after :=
        List.isPrefixOf?_eq_some_iff_append_eq.2 rfl
      rw [List.nil_append, List.cons_append, cut?, hmark]
  | cons c rest ih =>
      rw [List.mem_cons, not_or] at h
      have hmark : (m :: mark).isPrefixOf? (c :: (rest ++ (m :: mark ++ after))) = none := by
        simp [List.isPrefixOf?, h.1]
      rw [List.cons_append, cut?, hmark, ih h.2]
      rfl

theorem cutLast?_append {m : Char} {after : List Char} (h : m ∉ after) (mark before : List Char) :
    cutLast? (mark ++ [m]) (before ++ (mark ++ [m] ++ after)) = some (before, after) := by
  have hcut := cut?_append (mt List.mem_reverse.1 h) mark.reverse before.reverse
  have htext : (before ++ (mark ++ [m] ++ after)).reverse =
      after.reverse ++ (m :: mark.reverse ++ before.reverse) := by simp
  have hmark : (mark ++ [m]).reverse = m :: mark.reverse := by simp
  rw [cutLast?, htext, hmark, hcut]
  simp

theorem ofName?_name (o : Origin) : Origin.ofName? o.name = some o := by
  cases o <;> decide

/-- An entry's line is cut into its parts where it was put together. -/
theorem entryFrom?_append {location origin : List Char} (hblank : ' ' ∉ location) (hparen : '(' ∉ origin)
    (fact : List Char) :
    entryFrom? (location ++ (" '".toList ++ (fact ++ ("' (".toList ++ (origin ++ ")".toList))))) = do
      return {
        location := ← (Location.read (String.ofList location)).toOption
        origin := ← Origin.ofName? (String.ofList origin)
        fact := ← factFrom? fact } := by
  have hcut : cut? " '".toList (location ++ (" '".toList ++ (fact ++ ("' (".toList ++ (origin ++ ")".toList))))) =
      some (location, fact ++ ("' (".toList ++ (origin ++ ")".toList))) :=
    cut?_append hblank ['\''] _
  have hlast : cutLast? "' (".toList (fact ++ ("' (".toList ++ (origin ++ ")".toList))) =
      some (fact, origin ++ ")".toList) := by
    refine cutLast?_append ?_ ['\'', ' '] fact
    rw [List.mem_append]
    exact not_or.2 ⟨hparen, by decide⟩
  have hsuffix : ")".toList.isSuffixOf? (origin ++ ")".toList) = some origin :=
    List.isSuffixOf?_eq_some_iff_append_eq.2 rfl
  unfold entryFrom?
  rw [hcut]
  dsimp only [Option.bind_eq_bind, Option.bind_some]
  rw [hlast]
  dsimp only [Option.bind_some]
  rw [hsuffix]
  rfl

/-- What stands on the line of an entry behind its opening. -/
def entryChars (e : Entry .text) : List Char :=
  e.location.text.toList ++ (" '".toList ++ ((History.factText .text e.fact).toList ++
    ("' (".toList ++ (e.origin.name.toList ++ ")".toList))))

theorem entryFrom?_entryChars (e : Entry .text) : entryFrom? (entryChars e) = some e := by
  have hblank : ' ' ∉ e.location.text.toList := by
    intro hmem
    rcases Location.mem_text hmem with h | h | h <;> revert h <;> decide
  have hparen : '(' ∉ e.origin.name.toList := by
    cases e.origin <;> decide
  rw [entryChars, entryFrom?_append hblank hparen, String.ofList_toList, String.ofList_toList, Location.read_text,
    ofName?_name, factFrom?_factText]
  rfl

/-! ### Lines -/

/-- A line is read as the line it was written for. -/
theorem Line.read?_text (line : Line) : Line.read? line.text.toList = some line := by
  cases line with
  | function id =>
      have htext : (Line.function id).text.toList = "==== ".toList ++ (id.toList ++ " ====".toList) := by
        rw [Line.text, History.banner, String.toList_append, String.toList_append, List.append_assoc]
      have hfront : "==== ".toList.isPrefixOf? ("==== ".toList ++ (id.toList ++ " ====".toList)) =
          some (id.toList ++ " ====".toList) := List.isPrefixOf?_eq_some_iff_append_eq.2 rfl
      have hback : " ====".toList.isSuffixOf? (id.toList ++ " ====".toList) = some id.toList :=
        List.isSuffixOf?_eq_some_iff_append_eq.2 rfl
      rw [htext, Line.read?, hfront, Option.bind_some, hback]
      exact congrArg (fun id => some (Line.function id)) String.ofList_toList
  | entries name =>
      have htext : (Line.entries name).text.toList = "  * ".toList ++ name.toList := String.toList_append
      have hname : "  * ".toList.isPrefixOf? ("  * ".toList ++ name.toList) = some name.toList :=
        List.isPrefixOf?_eq_some_iff_append_eq.2 rfl
      have hfront : "==== ".toList.isPrefixOf? ("  * ".toList ++ name.toList) = none := rfl
      rw [htext, Line.read?, hfront, Option.bind_none, hname]
      exact congrArg (fun name => some (Line.entries name)) String.ofList_toList
  | entry e =>
      have htext : (Line.entry e).text.toList = "    - ".toList ++ entryChars e := by
        simp only [Line.text, History.entryLine, entryChars, String.toList_append, List.append_assoc]
      have hentry : "    - ".toList.isPrefixOf? ("    - ".toList ++ entryChars e) = some (entryChars e) :=
        List.isPrefixOf?_eq_some_iff_append_eq.2 rfl
      have hfront : "==== ".toList.isPrefixOf? ("    - ".toList ++ entryChars e) = none := rfl
      have hname : "  * ".toList.isPrefixOf? ("    - ".toList ++ entryChars e) = none := rfl
      rw [htext, Line.read?, hfront, Option.bind_none, hname, hentry]
      exact congrArg (Option.map Line.entry) (entryFrom?_entryChars e)

/-- A text that is no more than one line. -/
def OneLine (s : String) : Prop := ∀ c ∈ s.toList, c ≠ '\n' ∧ c ≠ '\r'

instance (s : String) : Decidable (OneLine s) :=
  List.decidableBAll (fun c => c ≠ '\n' ∧ c ≠ '\r') s.toList

@[simp] theorem oneLine_append (s t : String) : OneLine (s ++ t) ↔ OneLine s ∧ OneLine t := by
  rw [OneLine, String.toList_append, List.forall_mem_append]
  rfl

theorem oneLine_location (l : Location) : OneLine l.text := by
  intro c hc
  rcases Location.mem_text hc with h | rfl | rfl
  · constructor <;> rintro rfl <;> revert h <;> decide
  · decide
  · decide

theorem oneLine_escape (s : String) : OneLine (Escape.text s) := by
  intro c hc
  have hle := Escape.le_toNat_of_mem_text hc
  constructor <;> rintro rfl <;> revert hle <;> decide

theorem oneLine_factText (f : Fact String) : OneLine (History.factText .text f) := by
  cases f with
  | unresolved => decide
  | resolved value =>
      show OneLine (History.valueText .text value)
      unfold History.valueText
      dsimp only
      split
      · exact (oneLine_append _ _).2 ⟨by decide, oneLine_escape _⟩
      · exact oneLine_escape _

/-- Whether the name on a line, if the line has one, is no more than one line. -/
def Line.OneLineName : Line → Prop
  | .function id => OneLine id
  | .entries name => OneLine name
  | .entry _ => True

theorem Line.oneLine_text {line : Line} (h : line.OneLineName) : OneLine line.text := by
  cases line with
  | function id =>
      simp only [Line.text, History.banner, oneLine_append]
      exact ⟨⟨by decide, h⟩, by decide⟩
  | entries name =>
      simp only [Line.text, History.variableLine, oneLine_append]
      exact ⟨by decide, h⟩
  | entry e =>
      have horigin : OneLine e.origin.name := by cases e.origin <;> decide
      simp only [Line.text, History.entryLine, oneLine_append]
      refine ⟨⟨⟨⟨⟨⟨?_, oneLine_location _⟩, ?_⟩, oneLine_factText _⟩, ?_⟩, horigin⟩, ?_⟩ <;> decide

/-- The characters of a line, with the line feed that ends it. -/
def Line.chars (line : Line) : List Char := line.text.toList ++ ['\n']

theorem splitLines_append {line : List Char} (h : ∀ c ∈ line, c ≠ '\n' ∧ c ≠ '\r') (rest : List Char) :
    splitLines (line ++ '\n' :: rest) = line :: splitLines rest := by
  induction line with
  | nil => rfl
  | cons c line ih =>
      obtain ⟨hfeed, hreturn⟩ := h c List.mem_cons_self
      have ih := ih fun d hd => h d (List.mem_cons_of_mem _ hd)
      rw [List.cons_append, splitLines, ih]
      · exact hfeed
      · exact fun _ heq => absurd heq hreturn

/-- The text of lines splits into these lines. -/
theorem mapM_read?_splitLines {lines : List Line} (h : ∀ line ∈ lines, line.OneLineName) :
    (splitLines (lines.flatMap Line.chars)).mapM Line.read? = some lines := by
  induction lines with
  | nil => rfl
  | cons line rest ih =>
      have hline := Line.oneLine_text (h line List.mem_cons_self)
      have ih := ih fun other hother => h other (List.mem_cons_of_mem _ hother)
      have hsplit : splitLines ((line :: rest).flatMap Line.chars) =
          line.text.toList :: splitLines (rest.flatMap Line.chars) := by
        rw [List.flatMap_cons, Line.chars, List.append_assoc, List.singleton_append, splitLines_append hline]
      rw [hsplit, List.mapM_cons, Line.read?_text, ih]
      rfl

end Listing

/-! ### What a listing says -/

namespace History
variable {k : Kind}
open Listing

def trackLines (p : String × Track k) : List Line := .entries p.1 :: p.2.entries.map fun e => .entry e.written

/-- What the lines of a function's listing say. -/
def outline (p : String × History k) : List Line := .function p.1 :: p.2.tracks.toList.flatMap trackLines

theorem mem_trackLines {q : String × Track k} {line : Line} :
    line ∈ trackLines q ↔ line = .entries q.1 ∨ ∃ e ∈ q.2.entries, .entry e.written = line := by
  rw [trackLines, List.mem_cons, List.mem_map]

theorem lines_eq (p : String × History k) : p.2.lines p.1 = (outline p).map Line.text := by
  rw [lines, outline, List.map_cons, List.map_flatMap]
  refine congrArg (banner p.1 :: ·) (List.flatMap_congr fun q _ => ?_)
  rw [trackLines, List.map_cons, List.map_map]
  exact congrArg (variableLine q.1 :: ·) (List.map_congr_left fun e _ => entryLine_written e)

theorem toList_dump (p : String × History k) : (p.2.dump p.1).toList = (outline p).flatMap Line.chars := by
  rw [dump, lines_eq, String.toList_join, List.map_map, List.flatMap_map]
  exact List.flatMap_congr fun line _ => String.toList_append

/-- The entries of a variable are listed under the function and the variable named before. -/
theorem records?_entries (f name : String) (es : List (Entry k)) {rest : List Line} {more : List Record}
    (hrest : records? (some f) (some name) rest = some more) :
    records? (some f) (some name) ((es.map fun e => .entry e.written) ++ rest) =
      some ((es.map fun e => ⟨f, name, e.written⟩) ++ more) := by
  induction es with
  | nil => exact hrest
  | cons e es ih =>
      rw [List.map_cons, List.cons_append, records?, ih]
      rfl

theorem records?_tracks (f : String) (name : Option String) (tracks : List (String × Track k)) {rest : List Line}
    {more : List Record} (hrest : ∀ name, records? (some f) name rest = some more) :
    records? (some f) name (tracks.flatMap trackLines ++ rest) =
      some ((tracks.flatMap fun q => q.2.entries.map fun e => ⟨f, q.1, e.written⟩) ++ more) := by
  induction tracks generalizing name with
  | nil => exact hrest name
  | cons q tracks ih =>
      rw [List.flatMap_cons, List.flatMap_cons, List.append_assoc, List.append_assoc, trackLines, List.cons_append,
        records?]
      exact records?_entries f q.1 q.2.entries (ih (some q.1))

theorem records?_outline (f name : Option String) (histories : List (String × History k)) :
    records? f name (histories.flatMap outline) = some (histories.flatMap fun p => p.2.records p.1) := by
  induction histories generalizing f name with
  | nil => rfl
  | cons p histories ih =>
      rw [List.flatMap_cons, List.flatMap_cons, outline, List.cons_append, records?]
      exact records?_tracks p.1 none p.2.tracks.toList (ih (some p.1))

end History

/-! ### What the lines of a listing tell apart -/

section Parts
variable {α β : Type} {head : α → β} {body : α → List β} {opens : β → Bool}

theorem takeWhile_body_append (hhead : ∀ a, opens (head a) = true) (hbody : ∀ a, ∀ x ∈ body a, opens x = false)
    (a : α) (as : List α) :
    (body a ++ as.flatMap fun a => head a :: body a).takeWhile (fun x => !opens x) = body a := by
  have hrest : (as.flatMap fun a => head a :: body a).takeWhile (fun x => !opens x) = [] := by
    cases as with
    | nil => rfl
    | cons b bs => simp [hhead]
  rw [List.takeWhile_append_of_pos fun x hx => by simp [hbody a x hx], hrest, List.append_nil]

/-- Parts that each open with a head, and have no other, can be told from one another. -/
theorem flatMap_cons_injective (hhead : ∀ a, opens (head a) = true) (hbody : ∀ a, ∀ x ∈ body a, opens x = false)
    (hpart : ∀ a b, head a = head b → body a = body b → a = b) :
    Function.Injective (List.flatMap fun a => head a :: body a) := by
  intro as
  induction as with
  | nil =>
      intro bs h
      cases bs with
      | nil => rfl
      | cons b bs => simp at h
  | cons a as ih =>
      intro bs h
      cases bs with
      | nil => simp at h
      | cons b bs =>
          simp only [List.flatMap_cons, List.cons_append, List.cons.injEq] at h
          have hbodies : body a = body b := by
            rw [← takeWhile_body_append hhead hbody a as, h.2, takeWhile_body_append hhead hbody b bs]
          have hrest := h.2
          rw [hbodies, List.append_cancel_left_eq] at hrest
          rw [hpart a b h.1 hbodies, ih hrest]

end Parts

theorem Kind.format_injective (k : Kind) : Function.Injective k.format := by
  cases k with
  | integer => exact fun _ _ h => Int64.toInt_inj.1 (Int.repr_inj.1 h)
  | text => exact fun _ _ h => h

theorem Entry.written_injective {k : Kind} : Function.Injective (Entry.written (k := k)) := by
  rintro ⟨l, o, f⟩ ⟨l', o', f'⟩ h
  simp only [Entry.written, Entry.mk.injEq] at h
  obtain ⟨rfl, rfl, h⟩ := h
  have hfact : f = f' := by
    cases f <;> cases f' <;> simp [Fact.written] at h ⊢
    exact k.format_injective h
  rw [hfact]

namespace Listing.Line

def isFunction : Line → Bool
  | .function _ => true
  | _ => false

def isEntries : Line → Bool
  | .entries _ => true
  | _ => false

end Listing.Line

namespace History
variable {k : Kind}
open Listing

theorem flatMap_trackLines_injective : Function.Injective (List.flatMap (trackLines (k := k))) := by
  have hbody : ∀ q : String × Track k, ∀ line ∈ q.2.entries.map (fun e => Line.entry e.written),
      line.isEntries = false := by
    intro q line hline
    obtain ⟨e, -, rfl⟩ := List.mem_map.1 hline
    rfl
  refine flatMap_cons_injective (fun _ => rfl) hbody ?_
  rintro ⟨name, entries, _, _⟩ ⟨name', entries', _, _⟩ hname hentries
  cases hname
  cases List.map_injective_iff.2 (fun e e' h => Entry.written_injective (Line.entry.inj h)) hentries
  rfl

theorem flatMap_outline_injective : Function.Injective (List.flatMap (outline (k := k))) := by
  have hbody : ∀ p : String × History k, ∀ line ∈ p.2.tracks.toList.flatMap trackLines,
      line.isFunction = false := by
    intro p line hline
    obtain ⟨q, -, hq⟩ := List.mem_flatMap.1 hline
    rcases mem_trackLines.1 hq with rfl | ⟨e, -, rfl⟩ <;> rfl
  refine flatMap_cons_injective (fun _ => rfl) hbody ?_
  rintro ⟨id, tracks, _⟩ ⟨id', tracks', _⟩ hid htracks
  cases hid
  cases flatMap_trackLines_injective htracks
  rfl

end History

/-! ### The listing of an analyzer -/

namespace Analyzer
variable {k : Kind}
open Listing

def histories (a : Analyzer k) : Table (History k) := a.analyses.map (·.history)

/-- No function id and no variable name holds a line feed or a carriage return. -/
def OneLineNames (a : Analyzer k) : Prop :=
  ∀ p ∈ a.histories.toList, OneLine p.1 ∧ ∀ name ∈ p.2.names, OneLine name

instance (a : Analyzer k) : Decidable a.OneLineNames :=
  have (p : String × History k) : Decidable (∀ name ∈ p.2.names, OneLine name) := List.decidableBAll OneLine p.2.names
  List.decidableBAll (fun p : String × History k => OneLine p.1 ∧ ∀ name ∈ p.2.names, OneLine name) a.histories.toList

/-- What the lines of an analyzer's listing say. -/
def outline (a : Analyzer k) : List Line := a.histories.toList.flatMap History.outline

theorem toList_dumpAll (a : Analyzer k) : a.dumpAll.toList = a.outline.flatMap Line.chars := by
  rw [dumpAll, String.toList_join, List.flatMap_map, outline, List.flatMap_assoc, histories, Table.map,
    List.flatMap_map]
  exact List.flatMap_congr fun p _ => History.toList_dump (p.1, p.2.history)

theorem OneLineNames.outline {a : Analyzer k} (h : a.OneLineNames) : ∀ line ∈ a.outline, line.OneLineName := by
  intro line hline
  obtain ⟨p, hp, hline⟩ := List.mem_flatMap.1 hline
  obtain ⟨hid, hnames⟩ := h p hp
  rcases List.mem_cons.1 hline with rfl | hline
  · exact hid
  · obtain ⟨q, hq, hline⟩ := List.mem_flatMap.1 hline
    rcases History.mem_trackLines.1 hline with rfl | ⟨e, -, rfl⟩
    · exact hnames q.1 (List.mem_map_of_mem hq)
    · trivial

/-- The text of a listing tells its lines. -/
theorem OneLineNames.mapM_read? {a : Analyzer k} (h : a.OneLineNames) :
    (splitLines a.dumpAll.toList).mapM Line.read? = some a.outline := by
  rw [toList_dumpAll]
  exact mapM_read?_splitLines h.outline

theorem histories_eq_of_outline {a b : Analyzer k} (h : a.outline = b.outline) : a.histories = b.histories := by
  have hlist := History.flatMap_outline_injective h
  revert hlist
  cases a.histories
  cases b.histories
  rintro rfl
  rfl

/-- A listing can be read back: it reads to the records of all histories, in the order of function ids, variable names
and entries, and only these histories have this listing. -/
theorem read?_dumpAll (a : Analyzer k) (ha : a.OneLineNames) :
    Listing.read? a.dumpAll = some (a.histories.toList.flatMap fun p => p.2.records p.1) ∧
      ∀ b : Analyzer k, b.OneLineNames → b.dumpAll = a.dumpAll → b.histories = a.histories := by
  constructor
  · rw [Listing.read?, ha.mapM_read?]
    exact History.records?_outline none none a.histories.toList
  · intro b hb htext
    have houtline : b.outline = a.outline := by
      have hread := hb.mapM_read?
      rw [htext, ha.mapM_read?] at hread
      exact (Option.some.inj hread).symm
    exact histories_eq_of_outline houtline

/-- Texts that hold the marks of a listing. -/
def quoting : Analyzer .text :=
  let history := History.empty.recordAll [
    ("x", ⟨⟨1, 1, 0⟩, .code, .resolved "it's \\ \"é\"\n"⟩),
    ("x", ⟨⟨2, 1, 0⟩, .merge, .unresolved⟩),
    ("x", ⟨⟨2, 1, 7⟩, .code, .resolved "<UNRESOLVED>"⟩),
    ("' (", ⟨⟨3, 4, 0⟩, .code, .resolved "' ('"⟩)]
  ⟨{}, Table.ofList [("f ====", ⟨"f", history, ⟨[], []⟩, .empty, 1⟩)]⟩

theorem read?_dumpAll_quoting :
    quoting.OneLineNames ∧
      Listing.read? quoting.dumpAll = some [
        ⟨"f ====", "' (", ⟨⟨3, 4, 0⟩, .code, .resolved "' ('"⟩⟩,
        ⟨"f ====", "x", ⟨⟨1, 1, 0⟩, .code, .resolved "it's \\ \"é\"\n"⟩⟩,
        ⟨"f ====", "x", ⟨⟨2, 1, 0⟩, .merge, .unresolved⟩⟩,
        ⟨"f ====", "x", ⟨⟨2, 1, 7⟩, .code, .resolved "<UNRESOLVED>"⟩⟩] ∧
      ∀ b : Analyzer .text, b.OneLineNames → b.dumpAll = quoting.dumpAll → b.histories = quoting.histories := by
  have hnames : quoting.OneLineNames := by decide
  obtain ⟨hread, honly⟩ := read?_dumpAll quoting hnames
  exact ⟨hnames, hread.trans (by decide), honly⟩

end Analyzer
end ConstantFlow
