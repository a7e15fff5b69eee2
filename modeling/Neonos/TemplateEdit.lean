import Mathlib
import Neonos.Fallible
import Neonos.Model.LabTemplate

/-! What a template edit of a Rust source keeps. The body of a function ends at
the brace that matches its opening one; the edit looks for a line instead. -/
namespace Neonos.Lab
open LineSearch

variable {isalnum : Char → Bool} {source indent body after text rest replacement : Text} {name : FunctionName}

/-! ### Braces -/

/-- The braces match, with this many open before. -/
def Balanced (depth : Nat) : Text → Prop
  | [] => depth = 0
  | c :: text =>
    if c = '{' then Balanced (depth + 1) text
    else if c = '}' then 0 < depth ∧ Balanced (depth - 1) text
    else Balanced depth text

instance decidableBalanced : (depth : Nat) → (text : Text) → Decidable (Balanced depth text)
  | depth, [] => inferInstanceAs (Decidable (depth = 0))
  | depth, c :: text =>
    have := decidableBalanced (depth + 1) text
    have := decidableBalanced (depth - 1) text
    have := decidableBalanced depth text
    inferInstanceAs (Decidable (if c = '{' then Balanced (depth + 1) text
      else if c = '}' then 0 < depth ∧ Balanced (depth - 1) text else Balanced depth text))

theorem Balanced.behind (balanced : Balanced depth (text ++ rest)) : ∃ opened, Balanced opened rest := by
  induction text generalizing depth with
  | nil => exact ⟨depth, balanced⟩
  | cons c text ih =>
    rw [List.cons_append, Balanced] at balanced
    split at balanced
    · exact ih balanced
    · split at balanced
      · exact ih balanced.2
      · exact ih balanced

/-- Every open brace is matched. -/
theorem Balanced.closes (balanced : Balanced total text) (more : depth < total) :
    ∃ body after, text = body ++ '}' :: after ∧ Balanced depth body := by
  induction text generalizing depth total with
  | nil =>
    rw [Balanced] at balanced
    omega
  | cons c text ih =>
    rw [Balanced] at balanced
    by_cases opening : c = '{'
    · rw [if_pos opening] at balanced
      obtain ⟨body, after, rfl, inside⟩ := ih balanced (Nat.succ_lt_succ more)
      refine ⟨c :: body, after, rfl, ?_⟩
      rw [Balanced, if_pos opening]
      exact inside
    · rw [if_neg opening] at balanced
      by_cases closing : c = '}'
      · rw [if_pos closing] at balanced
        obtain ⟨-, balanced⟩ := balanced
        cases depth with
        | zero => exact ⟨[], text, by rw [closing, List.nil_append], rfl⟩
        | succ depth =>
          obtain ⟨body, after, rfl, inside⟩ := ih balanced (Nat.lt_sub_of_add_lt more)
          refine ⟨c :: body, after, rfl, ?_⟩
          rw [Balanced, if_neg opening, if_pos closing]
          exact ⟨Nat.succ_pos depth, inside⟩
      · rw [if_neg closing] at balanced
        obtain ⟨body, after, rfl, inside⟩ := ih balanced more
        refine ⟨c :: body, after, rfl, ?_⟩
        rw [Balanced, if_neg opening, if_neg closing]
        exact inside

/-! ### Lines -/

theorem blank_before (front back : Text) : blank (front ++ '\n' :: back) = blank front := by
  unfold blank
  induction front with
  | nil => rfl
  | cons c front ih =>
    rw [List.cons_append, List.takeWhile_cons, List.takeWhile_cons]
    by_cases ends : c = '\n'
    · simp [ends]
    · simp only [ends, ne_eq, not_false_eq_true, decide_true, if_true, List.all_cons]
      exact congrArg (isSpace c && ·) ih

/-- No brace stands on a blank rest of a line. -/
theorem blank_brace (oneLine : '\n' ∉ text) : blank (text ++ '}' :: rest) = false := by
  have plain : ∀ c ∈ text, decide (c ≠ '\n') = true := by
    intro c member
    apply decide_eq_true
    rintro rfl
    exact oneLine member
  unfold blank
  rw [List.takeWhile_append_of_pos plain]
  simp [isSpace]

theorem closesAt_some : closesAt indent text = some u ↔ ∃ rest, text = indent ++ '}' :: rest ∧ blank rest = true := by
  unfold closesAt
  have whole : (text.dropPrefix? (indent ++ ['}'])).any blank = true ↔
      ∃ rest, text = indent ++ '}' :: rest ∧ blank rest = true := by
    rw [Option.any_eq_true]
    constructor
    · rintro ⟨rest, found, empty⟩
      obtain ⟨front, rfl, same⟩ := List.dropPrefix?_eq_some_iff.mp found
      obtain rfl := eq_of_beq same
      exact ⟨rest, by simp, empty⟩
    · rintro ⟨rest, rfl, empty⟩
      exact ⟨rest, List.dropPrefix?_eq_some_iff.mpr ⟨indent ++ ['}'], by simp, beq_self_eq_true _⟩, empty⟩
  rw [← whole]
  split <;> simp_all

/-- A line that begins before the last one ends before it. -/
theorem line_ends {front mid back : Text} (clear : '\n' ∉ front) (same : front ++ rest = mid ++ '\n' :: back) :
    ∃ more, mid = front ++ more ∧ rest = more ++ '\n' :: back := by
  rcases List.append_eq_append_iff.mp same with ⟨more, longer, shape⟩ | ⟨more, longer, shape⟩
  · exact ⟨more, longer, shape⟩
  · cases more with
    | nil => exact ⟨[], by simpa using longer.symm, by simpa using shape.symm⟩
    | cons c more =>
      obtain rfl := (List.cons.inj shape).1
      exact absurd (longer ▸ by simp) clear

/-- Of two line ends in one text, the earlier stands before the later. -/
theorem earlier_line {front inside back back' : Text} (same : front ++ '\n' :: back = inside ++ '\n' :: back')
    (earlier : front.length < inside.length) : ∃ mid, inside = front ++ '\n' :: mid ∧ back = mid ++ '\n' :: back' := by
  rcases List.append_eq_append_iff.mp same with ⟨mid, longer, shape⟩ | ⟨mid, longer, shape⟩
  · cases mid with
    | nil => simp [longer] at earlier
    | cons c mid =>
      obtain ⟨rfl, later⟩ := List.cons.inj shape
      exact ⟨mid, longer, later⟩
  · rw [longer, List.length_append] at earlier
    omega

theorem cut_at {c : Char} {front : Text} (rest : Text) (clear : c ∉ front) :
    (front ++ c :: rest).dropWhile (· ≠ c) = c :: rest ∧ (front ++ c :: rest).takeWhile (· ≠ c) = front := by
  induction front with
  | nil => simp
  | cons first front ih =>
    obtain ⟨other, clear⟩ := List.ne_and_not_mem_of_not_mem_cons clear
    simpa [other.symm] using ih clear

/-! ### Where a function stands -/

theorem fromClose_ok : fromClose name indent text = .ok rest ↔
    ∃ close, (places (closesAt indent) [] text).head? = some close ∧ rest = close.text := by
  unfold fromClose
  cases (places (closesAt indent) [] text).head? with
  | none => simp
  | some close => simp [eq_comm]

/-- The one function that the pattern finds, and the block that the first brace
from its signature on opens: its body, where it has one and no brace stands in
the signature. -/
structure Site (isalnum : Char → Bool) (source : Text) (name : FunctionName) where
  before : Text
  indent : Text
  head : Text
  body : Text
  after : Text
  found : places (signatureAt isalnum name) [] source = [⟨before, indent, head ++ '{' :: (body ++ '}' :: after)⟩]
  first : '{' ∉ head
  closed : Balanced 0 body

namespace Site
variable (site : Site isalnum source name)

/-- What stands before the closing brace on its line, where that is a line of its own. -/
def closingLine : Text := if '\n' ∈ site.body then site.body.rtakeWhile (· ≠ '\n') else []

/-- The source with the replacement for what the two braces enclose. -/
def replaced (replacement : Text) : Text :=
  site.before ++ site.head ++ '{' :: '\n' ::
    (indented site.indent replacement ++ '\n' :: (site.closingLine ++ '}' :: site.after))

/-- The closing brace stands on a later line, behind the signature's indentation
and before nothing, and no line of the body looks like that one. -/
structure Formatted : Prop where
  closing : ∃ inside, site.body = inside ++ '\n' :: site.indent
  alone : blank site.after = true
  only : ∀ front rest, site.body = front ++ '\n' :: (site.indent ++ '}' :: rest) → blank rest = false

theorem member : (⟨site.before, site.indent, site.head ++ '{' :: (site.body ++ '}' :: site.after)⟩ : Place Text) ∈
    places (signatureAt isalnum name) [] source := by
  rw [site.found]
  exact List.mem_cons_self

theorem whole : source = site.before ++ (site.head ++ '{' :: (site.body ++ '}' :: site.after)) := by
  obtain ⟨skipped, stands, text, -⟩ := mem_places.mp site.member
  rw [List.nil_append] at stands
  exact text.trans (congrArg (· ++ _) stands.symm)

theorem indent_spaces : ∀ c ∈ site.indent, c = ' ' := by
  obtain ⟨-, -, -, -, sign⟩ := mem_places.mp site.member
  intro c inside
  unfold signatureAt at sign
  dsimp only at sign
  split at sign
  · rw [← Option.some.inj sign] at inside
    have space := List.mem_takeWhile_imp inside
    exact of_decide_eq_true space
  · cases sign

/-- The edit is the replacement up to the line it takes for the closing one. -/
theorem removeBody_ok : removeBody isalnum source name replacement = .ok out ↔ ∃ close,
    (places (closesAt site.indent) [] ('{' :: (site.body ++ '}' :: site.after))).head? = some close ∧
      out = site.before ++ site.head ++ '{' :: '\n' ::
        (indented site.indent replacement ++ '\n' :: close.text) := by
  obtain ⟨dropped, taken⟩ := cut_at (site.body ++ '}' :: site.after) site.first
  have only : onlySignature isalnum source name =
      .ok ⟨site.before, site.indent, site.head ++ '{' :: (site.body ++ '}' :: site.after)⟩ := by
    unfold onlySignature
    rw [site.found]
  have begins (indent : Text) :
      fromBrace ⟨site.before, indent, site.head ++ '{' :: (site.body ++ '}' :: site.after)⟩ =
        .ok ('{' :: (site.body ++ '}' :: site.after)) := by
    unfold fromBrace
    rw [dropped]
  constructor
  · intro returned
    obtain ⟨found, same, returned⟩ := bind_ok.mp returned
    cases only.symm.trans same
    obtain ⟨begin_, same, returned⟩ := bind_ok.mp returned
    cases (begins site.indent).symm.trans same
    obtain ⟨rest, closes, made⟩ := bind_ok.mp returned
    obtain ⟨close, least, rfl⟩ := fromClose_ok.mp closes
    refine ⟨close, least, ?_⟩
    rw [← Except.ok.inj made, taken]
    simp
  · rintro ⟨close, least, rfl⟩
    refine bind_ok.mpr ⟨_, only, bind_ok.mpr ⟨_, begins site.indent, bind_ok.mpr ⟨close.text, ?_, ?_⟩⟩⟩
    · exact fromClose_ok.mpr ⟨close, least, rfl⟩
    · rw [taken]
      simp

/-- The lines after the opening brace that look like the closing one. -/
theorem mem_closing {close : Place Unit} :
    close ∈ places (closesAt site.indent) [] ('{' :: (site.body ++ '}' :: site.after)) ↔
      ∃ front rest, close.before = '{' :: (front ++ ['\n']) ∧ close.text = site.indent ++ '}' :: rest ∧
        site.body ++ '}' :: site.after = front ++ '\n' :: close.text ∧ blank rest = true := by
  rw [mem_places]
  constructor
  · rintro ⟨skipped, stands, shape, start, found⟩
    obtain ⟨rest, line, empty⟩ := closesAt_some.mp found
    rw [List.nil_append] at stands
    rw [stands] at start
    cases skipped with
    | nil =>
      rw [List.nil_append, line] at shape
      cases spaces : site.indent with
      | nil => simp [spaces] at shape
      | cons c indent =>
        have space := site.indent_spaces c (by simp [spaces])
        simp [spaces, space] at shape
    | cons c skipped =>
      obtain ⟨rfl, shape⟩ := List.cons.inj shape
      rcases List.eq_nil_or_concat skipped with rfl | ⟨front, last, rfl⟩
      · exact absurd (AtLine.ends [] start) (by decide)
      · rw [List.concat_eq_append] at start stands shape
        obtain rfl := AtLine.ends ('{' :: front) start
        exact ⟨front, rest, by simp [stands], line, by simpa using shape, empty⟩
  · rintro ⟨front, rest, stands, line, shape, empty⟩
    refine ⟨close.before, rfl, ?_, ?_, closesAt_some.mpr ⟨rest, line, empty⟩⟩
    · rw [stands, shape]
      simp
    · rw [stands]
      exact atLine_snoc ('{' :: front)

theorem closingLine_last {inside last : Text} (shape : site.body = inside ++ '\n' :: last) (oneLine : '\n' ∉ last) :
    site.closingLine = last := by
  have long : '\n' ∈ site.body := by simp [shape]
  have clear : '\n' ∉ last.reverse := by simpa using oneLine
  unfold closingLine
  rw [if_pos long, shape, List.rtakeWhile, List.reverse_append, List.reverse_cons, List.append_assoc,
    List.singleton_append, (cut_at inside.reverse clear).2, List.reverse_reverse]

theorem closingLine_oneLine : '\n' ∉ site.closingLine := by
  unfold closingLine
  split
  · intro member
    rw [List.rtakeWhile, List.mem_reverse] at member
    have other := List.mem_takeWhile_imp member
    simp at other
  · exact List.not_mem_nil

theorem indent_oneLine : '\n' ∉ site.indent := fun member => absurd (site.indent_spaces _ member) (by decide)

/-- A formatted body ends where the edit looks for its end. -/
theorem Formatted.closes {site : Site isalnum source name} (formatted : site.Formatted) : ∃ close,
    (places (closesAt site.indent) [] ('{' :: (site.body ++ '}' :: site.after))).head? = some close ∧
      close.text = site.closingLine ++ '}' :: site.after := by
  obtain ⟨⟨inside, shape⟩, alone, only⟩ := formatted
  refine ⟨⟨'{' :: (inside ++ ['\n']), (), site.indent ++ '}' :: site.after⟩, first_place.mpr ⟨?_, ?_⟩, ?_⟩
  · refine site.mem_closing.mpr ⟨inside, site.after, rfl, rfl, ?_, alone⟩
    rw [shape]
    simp
  · intro other member
    obtain ⟨front, rest, stands, line, split, empty⟩ := site.mem_closing.mp member
    by_contra less
    rw [stands] at less
    simp only [List.length_cons, List.length_append, List.length_nil, not_le] at less
    have earlier : front.length < inside.length := by omega
    have same : front ++ '\n' :: other.text = inside ++ '\n' :: (site.indent ++ '}' :: site.after) := by
      rw [← split, shape]
      simp
    -- a line that ends before the last of the body lies within the body
    obtain ⟨mid, begins, within⟩ := earlier_line same earlier
    have ends : (site.indent ++ ['}']) ++ rest = mid ++ '\n' :: (site.indent ++ '}' :: site.after) := by
      rw [← within, line]
      simp
    have clear : '\n' ∉ site.indent ++ ['}'] := by
      simpa using site.indent_oneLine
    obtain ⟨more, whole, remains⟩ := line_ends clear ends
    have looks := only front (more ++ '\n' :: site.indent) (by
      rw [shape, begins, whole]
      simp)
    rw [blank_before] at looks
    rw [remains, blank_before, looks] at empty
    cases empty
  · rw [site.closingLine_last shape site.indent_oneLine]

/-- Where the edit takes the line of the matching brace, the body is formatted. -/
theorem formatted_of_closes {close : Place Unit}
    (least : (places (closesAt site.indent) [] ('{' :: (site.body ++ '}' :: site.after))).head? = some close)
    (exact_ : close.text = site.closingLine ++ '}' :: site.after) : site.Formatted := by
  obtain ⟨member, least⟩ := first_place.mp least
  obtain ⟨inside, rest, stands, line, split, empty⟩ := site.mem_closing.mp member
  have body : site.body = inside ++ '\n' :: site.closingLine := by
    rw [exact_] at split
    have ends : site.body ++ '}' :: site.after = (inside ++ '\n' :: site.closingLine) ++ '}' :: site.after := by
      simpa using split
    exact List.append_cancel_right ends
  obtain ⟨same, behind⟩ : site.closingLine = site.indent ∧ site.after = rest := by
    have shape : site.closingLine ++ '}' :: site.after = site.indent ++ '}' :: rest := exact_.symm.trans line
    rcases List.append_eq_append_iff.mp shape with ⟨more, longer, shape⟩ | ⟨more, longer, shape⟩
    · cases more with
      | nil => exact ⟨by simpa using longer.symm, (List.cons.inj shape).2⟩
      | cons c more =>
        obtain rfl := (List.cons.inj shape).1
        exact absurd (site.indent_spaces '}' (by simp [longer])) (by decide)
    · cases more with
      | nil => exact ⟨by simpa using longer, (List.cons.inj shape).2.symm⟩
      | cons c more =>
        have oneLine : '\n' ∉ more := fun member => site.closingLine_oneLine (by simp [longer, member])
        have behind : rest = more ++ '}' :: site.after := (List.cons.inj shape).2
        rw [behind, blank_brace oneLine] at empty
        cases empty
  rw [same] at body
  refine ⟨⟨inside, body⟩, behind ▸ empty, fun front remains shape => ?_⟩
  by_contra looks
  -- a line of the body that looks like the closing one stands before it, and the edit takes the first
  have earlier : front.length < inside.length := by
    have lengths := congrArg List.length (body.symm.trans shape)
    simp only [List.length_append, List.length_cons] at lengths
    omega
  obtain ⟨mid, begins, within⟩ := earlier_line (shape.symm.trans body) earlier
  have ends : (site.indent ++ ['}']) ++ remains = mid ++ '\n' :: site.indent := by
    rw [← within]
    simp
  have clear : '\n' ∉ site.indent ++ ['}'] := by
    simpa using site.indent_oneLine
  obtain ⟨more, -, cut⟩ := line_ends clear ends
  have another : (⟨'{' :: (front ++ ['\n']), (), site.indent ++ '}' :: (remains ++ '}' :: site.after)⟩ : Place Unit) ∈
      places (closesAt site.indent) [] ('{' :: (site.body ++ '}' :: site.after)) := by
    refine site.mem_closing.mpr ⟨front, remains ++ '}' :: site.after, rfl, rfl, ?_, ?_⟩
    · rw [shape]
      simp
    · rw [Bool.not_eq_false, cut, blank_before] at looks
      rw [cut, List.append_assoc, List.cons_append, blank_before]
      exact looks
  have after := least _ another
  rw [stands] at after
  simp only [List.length_cons, List.length_append, List.length_nil] at after
  omega

end Site

/-! ### The edit -/

/-- The replaced source comes out exactly where the function is formatted. -/
theorem Site.returns_iff (site : Site isalnum source name) :
    removeBody isalnum source name replacement = .ok (site.replaced replacement) ↔ site.Formatted := by
  rw [site.removeBody_ok]
  constructor
  · rintro ⟨close, least, same⟩
    refine site.formatted_of_closes least ?_
    have tails := List.append_cancel_left same
    have lines := (List.cons.inj (List.cons.inj tails).2).2
    exact (List.cons.inj (List.append_cancel_left lines)).2.symm
  · intro formatted
    obtain ⟨close, least, line⟩ := formatted.closes
    refine ⟨close, least, ?_⟩
    rw [line]
    rfl

theorem fromBrace_ok {found : Place Text} (begins : fromBrace found = .ok rest) :
    ∃ head tail, found.text = head ++ '{' :: tail ∧ '{' ∉ head := by
  by_cases brace : '{' ∈ found.text
  · exact List.eq_append_cons_of_mem brace
  · have none : found.text.dropWhile (· ≠ '{') = [] := by
      apply List.dropWhile_eq_nil_iff.mpr
      intro c member
      apply decide_eq_true
      rintro rfl
      exact brace member
    unfold fromBrace at begins
    rw [none] at begins
    cases begins

theorem onlySignature_ok {found : Place Text} (only : onlySignature isalnum source name = .ok found) :
    places (signatureAt isalnum name) [] source = [found] := by
  unfold onlySignature at only
  split at only
  · rename_i place all
    rw [all, Except.ok.inj only]
  · cases only

/-- Where the edit returns, the one function it found has a block. -/
theorem site_of_returns (balanced : Balanced 0 source)
    (returned : removeBody isalnum source name replacement = .ok out) : Nonempty (Site isalnum source name) := by
  obtain ⟨found, only, returned⟩ := bind_ok.mp returned
  obtain ⟨_, begins, -⟩ := bind_ok.mp returned
  have all := onlySignature_ok only
  obtain ⟨head, tail, text, first⟩ := fromBrace_ok begins
  have member : found ∈ places (signatureAt isalnum name) [] source := by
    rw [all]
    exact List.mem_cons_self
  obtain ⟨skipped, -, whole, -⟩ := mem_places.mp member
  have inside : ∃ total, Balanced (total + 1) tail := by
    rw [whole, text, ← List.append_assoc] at balanced
    obtain ⟨total, behind⟩ := balanced.behind
    rw [Balanced, if_pos rfl] at behind
    exact ⟨total, behind⟩
  obtain ⟨total, opened⟩ := inside
  obtain ⟨body, after, rfl, closed⟩ := opened.closes (Nat.succ_pos total)
  refine ⟨found.before, found.value, head, body, after, ?_, first, closed⟩
  rw [all, ← text]

/-- **What a template edit keeps.** On every source whose braces match, for
every function and replacement, `remove_body` raises or has found one function
with a block; and it returns the source in which just the text between the
block's opening brace and the brace that matches it is replaced, with
everything before and everything from the closing brace's line on, exactly
where the function is formatted with its closing brace on a line of its own at
the signature's indentation and no earlier line like it. -/
theorem removeBody_exact_iff (isalnum : Char → Bool) (source : Text) (name : FunctionName) (replacement : Text)
    (balanced : Balanced 0 source) :
    ((∃ error, removeBody isalnum source name replacement = .error error) ∨ Nonempty (Site isalnum source name)) ∧
      ∀ site : Site isalnum source name,
        removeBody isalnum source name replacement = .ok (site.replaced replacement) ↔ site.Formatted := by
  refine ⟨?_, fun site => site.returns_iff⟩
  cases returned : removeBody isalnum source name replacement with
  | error error => exact .inl ⟨error, rfl⟩
  | ok out => exact .inr (site_of_returns balanced returned)

/-! ### Sources -/

def push : FunctionName := ⟨"push".toList, by decide⟩
def todo : Text := "todo!();".toList

/-- A method between its neighbours. -/
def method : Text :=
  "impl Thing \x7b\n    fn push(&mut self) \x7b\n        go();\n    \x7d\n    fn next() \x7b\x7d\n\x7d\n".toList

def methodSite : Site Char.isAlphanum method push where
  before := "impl Thing \x7b\n".toList
  indent := "    ".toList
  head := "    fn push(&mut self) ".toList
  body := "\n        go();\n    ".toList
  after := "\n    fn next() \x7b\x7d\n\x7d\n".toList
  found := by decide +kernel
  first := by decide
  closed := by decide

theorem method_kept : removeBody Char.isAlphanum method push todo = .ok (methodSite.replaced todo) := by
  refine ((removeBody_exact_iff Char.isAlphanum method push todo (by decide)).2 methodSite).mpr ?_
  refine ⟨⟨"\n        go();".toList, by decide⟩, by decide, fun front rest shape => ?_⟩
  have brace : '}' ∈ methodSite.body := by simp [shape]
  exact absurd brace (by decide)

/-- A function on one line, and the next one. -/
def oneLine : Text := "fn push() \x7b\x7d\nfn next() \x7b\n    go();\n\x7d\n".toList

def oneLineSite : Site Char.isAlphanum oneLine push where
  before := []
  indent := []
  head := "fn push() ".toList
  body := []
  after := "\nfn next() \x7b\n    go();\n\x7d\n".toList
  found := by decide +kernel
  first := by decide
  closed := by decide

/-- A line of the body that looks like its last. -/
def innerLine : Text := "fn push() \x7b\n    if on \x7b\n\x7d\n    go();\n\x7d\n".toList

/-- A function without a body, and the next one. -/
def declared : Text := "fn push();\nfn next() \x7b\n    go();\n\x7d\n".toList

/-- The edit deletes the function after one on a line, leaves half a body where a
line looks like its last, and takes the next body for one that is not there. -/
theorem neighbours_damaged :
    (Balanced 0 oneLine ∧
      removeBody Char.isAlphanum oneLine push todo = .ok "fn push() \x7b\n    todo!();\n\x7d\n".toList ∧
      "fn push() \x7b\n    todo!();\n\x7d\n".toList ≠ oneLineSite.replaced todo ∧
      ¬ '}' :: oneLineSite.after <:+ "fn push() \x7b\n    todo!();\n\x7d\n".toList) ∧
    (Balanced 0 innerLine ∧ removeBody Char.isAlphanum innerLine push todo =
      .ok "fn push() \x7b\n    todo!();\n\x7d\n    go();\n\x7d\n".toList) ∧
    Balanced 0 declared ∧ removeBody Char.isAlphanum declared push todo =
      .ok "fn push();\nfn next() \x7b\n    todo!();\n\x7d\n".toList := by
  decide +kernel

end Neonos.Lab
