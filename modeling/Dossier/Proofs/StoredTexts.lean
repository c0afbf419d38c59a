import Dossier.Json.Printer
import Dossier.Json.Reader
import Dossier.Proofs.KeyedEntries
import Dossier.Proofs.NumberTexts

/-! What is read back from the compact text of a value: the value itself, but for its numbers,
which are those that their texts denote. -/
namespace Dossier.Json

/-! ### String literals -/

theorem hexCode?_hexNumeral (n : Nat) (small : n < 0x20) :
    ∃ a b c d, Text.hexNumeral 4 n = [a, b, c, d] ∧ Token.hexCode? a b c d = some n := by
  refine ⟨_, _, _, _, rfl, ?_⟩
  have all : ∀ n < 0x20, Token.hexCode? (Text.hexDigit (n / 16 / 16 / 16)) (Text.hexDigit (n / 16 / 16))
      (Text.hexDigit (n / 16)) (Text.hexDigit n) = some n := by decide +kernel
  exact all n small

/-- What scanning adds to the pieces of what follows. -/
def withPiece (c : Char) (scanned : Option (List Token.Piece × List Char)) :
    Option (List Token.Piece × List Char) :=
  scanned.map fun (pieces, rest) => (.character c :: pieces, rest)

theorem scanPieces_escape {e c : Char} (simple : e ≠ 'u') (known : Token.escapes.lookup e = some c)
    (rest : List Char) :
    Token.scanPieces ('\\' :: e :: rest) = withPiece c (Token.scanPieces rest) := by
  rw [Token.scanPieces]
  · simp only [known, withPiece]
    cases Token.scanPieces rest <;> simp
  · exact fun _ _ _ _ _ same => absurd same simple

theorem scanPieces_hex {c : Char} (small : c.toNat < 0x20) (rest : List Char) :
    Token.scanPieces ('\\' :: 'u' :: (Text.hexNumeral 4 c.toNat ++ rest)) =
      withPiece c (Token.scanPieces rest) := by
  obtain ⟨_, _, _, _, digits, code⟩ := hexCode?_hexNumeral c.toNat small
  have piece : Token.Piece.ofCode c.toNat = .character c := by
    unfold Token.Piece.ofCode
    rw [if_neg (by omega), Char.ofNat_toNat]
  rw [digits]
  simp only [List.cons_append, List.nil_append, Token.scanPieces, code, withPiece]
  cases Token.scanPieces rest <;> simp [piece]

theorem scanPieces_plain {c : Char} (quote : c ≠ '"') (slash : c ≠ '\\') (large : ¬ c.toNat < 0x20)
    (rest : List Char) : Token.scanPieces (c :: rest) = withPiece c (Token.scanPieces rest) := by
  rw [Token.scanPieces]
  · simp only [large, withPiece]
    cases Token.scanPieces rest <;> simp
  · simpa using quote
  · exact fun _ _ _ _ _ same => absurd same slash
  · exact fun _ _ same => absurd same slash

/-- A character that is written in a literal is the one read from it. -/
theorem scanPieces_escaped (c : Char) (rest : List Char) :
    Token.scanPieces (escaped c ++ rest) = withPiece c (Token.scanPieces rest) := by
  unfold escaped
  split
  · rename_i same
    subst same
    exact scanPieces_escape (by decide) rfl rest
  split
  · rename_i same
    subst same
    exact scanPieces_escape (by decide) rfl rest
  split
  · rename_i same
    subst same
    exact scanPieces_escape (by decide) rfl rest
  split
  · rename_i same
    subst same
    exact scanPieces_escape (by decide) rfl rest
  split
  · rename_i same
    subst same
    exact scanPieces_escape (by decide) rfl rest
  split
  · rename_i same
    subst same
    exact scanPieces_escape (by decide) rfl rest
  split
  · rename_i same
    subst same
    exact scanPieces_escape (by decide) rfl rest
  split
  · rename_i small
    exact scanPieces_hex small rest
  · rename_i quote slash _ _ _ _ _ large
    exact scanPieces_plain quote slash large rest

theorem scanPieces_literal (text rest : List Char) :
    Token.scanPieces (text.flatMap escaped ++ '"' :: rest) = some (text.map .character, rest) := by
  induction text with
  | nil => rfl
  | cons c others ih =>
    rw [List.flatMap_cons, List.append_assoc, scanPieces_escaped, ih]
    rfl

theorem joinPieces_characters (text : List Char) :
    Token.joinPieces (text.map .character) = some text := by
  induction text with
  | nil => rfl
  | cons c others ih => simp [Token.joinPieces, ih]

theorem next?_quoted (text : String) (rest : List Char) :
    Token.next? (quoted text ++ rest) = some (.text (some text), rest) := by
  simp [quoted, Token.next?, scanPieces_literal, joinPieces_characters]

/-! ### Tokens -/

mutual
/-- The tokens of the compact text of a value. -/
def tokens : Json → List Token
  | .null => [.null]
  | .bool b => [.bool b]
  | .number n => [.number n.reread]
  | .text value => [.text (some value)]
  | .array items => .beginArray :: tokensItems items ++ [.endArray]
  | .object members => .beginObject :: tokensMembers members ++ [.endObject]
def tokensItems : List Json → List Token
  | [] => []
  | [item] => tokens item
  | item :: next :: rest => tokens item ++ .comma :: tokensItems (next :: rest)
def tokensMembers : List (String × Json) → List Token
  | [] => []
  | [(key, value)] => .text (some key) :: .colon :: tokens value
  | (key, value) :: next :: rest =>
    .text (some key) :: .colon :: tokens value ++ .comma :: tokensMembers (next :: rest)
end

/-- Some characters without blanks between them are some tokens. -/
inductive Scans : List Char → List Token → Prop where
  | done : Scans [] []
  | next {c : Char} {others rest : List Char} {token : Token} {more : List Token}
      (noBlank : Token.isBlank c = false) (first : Token.next? (c :: others) = some (token, rest))
      (shorter : rest.length ≤ others.length) (later : Scans rest more) : Scans (c :: others) (token :: more)

theorem Scans.length_le {characters : List Char} {tokens : List Token} (scans : Scans characters tokens) :
    tokens.length ≤ characters.length := by
  induction scans with
  | done => exact Nat.le_refl _
  | next _ _ shorter _ ih =>
    simp only [List.length_cons]
    omega

theorem Scans.scanWithin {characters : List Char} {tokens : List Token} (scans : Scans characters tokens)
    {bound : Nat} (enough : tokens.length ≤ bound) : Token.scanWithin bound characters = some tokens := by
  induction scans generalizing bound with
  | done => cases bound <;> rfl
  | next noBlank first _ _ ih =>
    cases bound with
    | zero => simp at enough
    | succ bound =>
      have later := ih (Nat.le_of_succ_le_succ enough)
      simp [Token.scanWithin, noBlank, first, later]

theorem Scans.scan {text : String} {tokens : List Token} (scans : Scans text.toList tokens) :
    Token.scan text = some tokens :=
  scans.scanWithin scans.length_le

/-- A literal that is one token, in front of more. -/
theorem Scans.literal {literal rest : List Char} {token : Token} {more : List Token}
    (first : Token.next? (literal ++ rest) = some (token, rest)) (nonempty : literal ≠ [])
    (noBlank : ∀ c ∈ literal.head?, Token.isBlank c = false) (later : Scans rest more) :
    Scans (literal ++ rest) (token :: more) := by
  cases literal with
  | nil => exact absurd rfl nonempty
  | cons c others => exact .next (noBlank c rfl) first (by simp) later

theorem scans_quoted (text : String) {rest : List Char} {more : List Token} (later : Scans rest more) :
    Scans (quoted text ++ rest) (.text (some text) :: more) :=
  .literal (next?_quoted text rest) (by simp [quoted]) (by simp [quoted, Token.isBlank]) later

theorem scans_number (n : Number) {rest : List Char} {more : List Token} (ends : Ends rest)
    (later : Scans rest more) : Scans (n.text.toList ++ rest) (.number n.reread :: more) := by
  obtain ⟨c, others, text, sort⟩ := text_head n
  have noBlank : Token.isBlank c = false := by
    rcases sort with rfl | digit
    · decide
    · by_contra blank
      simp only [Token.isBlank, Bool.not_eq_false, Bool.or_eq_true, beq_iff_eq] at blank
      rcases blank with ((rfl | rfl) | rfl) | rfl <;> cases digit
  exact .literal (next?_text n ends) (by simp [text]) (by simpa [text] using noBlank) later

theorem ends_mark {mark : Char} (isMark : mark = ',' ∨ mark = ']' ∨ mark = '\x7d') (rest : List Char) :
    Ends (mark :: rest) := by
  intro c first
  cases first
  exact isMark

mutual
/-- The compact text of a value, with what ends it, is scanned as its tokens. -/
theorem scans_value : (value : Json) → ∀ {rest : List Char} {more : List Token}, Ends rest →
    Scans rest more → Scans (value.characters ++ rest) (value.tokens ++ more)
  | .null => by
    intro ends later
    exact .literal rfl (by simp [characters]) (by simp [characters, Token.isBlank]) later
  | .bool true => by
    intro ends later
    exact .literal rfl (by simp [characters]) (by simp [characters, Token.isBlank]) later
  | .bool false => by
    intro ends later
    exact .literal rfl (by simp [characters]) (by simp [characters, Token.isBlank]) later
  | .number n => fun ends later => scans_number n ends later
  | .text value => fun _ later => scans_quoted value later
  | .array items => by
    intro ends later
    have inner := scans_items items (.next (c := ']') rfl rfl (Nat.le_refl _) later)
    have whole := Scans.next (c := '[') rfl rfl (Nat.le_refl _) inner
    simpa [characters, tokens] using whole
  | .object members => by
    intro ends later
    have inner := scans_members members (.next (c := '\x7d') rfl rfl (Nat.le_refl _) later)
    have whole := Scans.next (c := '\x7b') rfl rfl (Nat.le_refl _) inner
    simpa [characters, tokens] using whole
theorem scans_items : (items : List Json) → ∀ {rest : List Char} {more : List Token},
    Scans (']' :: rest) more → Scans (charactersItems items ++ ']' :: rest) (tokensItems items ++ more)
  | [] => fun later => later
  | [item] => fun later => scans_value item (ends_mark (by simp) _) later
  | item :: next :: rest => by
    intro later
    have others := scans_items (next :: rest) later
    have marked := Scans.next (c := ',') rfl rfl (Nat.le_refl _) others
    have whole := scans_value item (ends_mark (by simp) _) marked
    simpa [charactersItems, tokensItems] using whole
theorem scans_members : (members : List (String × Json)) → ∀ {rest : List Char} {more : List Token},
    Scans ('\x7d' :: rest) more →
      Scans (charactersMembers members ++ '\x7d' :: rest) (tokensMembers members ++ more)
  | [] => fun later => later
  | [(key, value)] => by
    intro later
    have inner := scans_value value (ends_mark (by simp) _) later
    have marked := Scans.next (c := ':') rfl rfl (Nat.le_refl _) inner
    have whole := scans_quoted key marked
    simpa [charactersMembers, tokensMembers] using whole
  | (key, value) :: next :: rest => by
    intro later
    have others := scans_members (next :: rest) later
    have marked := Scans.next (c := ',') rfl rfl (Nat.le_refl _) others
    have inner := scans_value value (ends_mark (by simp) _) marked
    have named := Scans.next (c := ':') rfl rfl (Nat.le_refl _) inner
    have whole := scans_quoted key named
    simpa [charactersMembers, tokensMembers] using whole
end

theorem scan_render (value : Json) : Token.scan value.render = some value.tokens := by
  have ends : Ends [] := by simp [Ends]
  have scans := scans_value value ends .done
  rw [List.append_nil, List.append_nil] at scans
  exact Scans.scan (by simpa [render] using scans)

/-! ### Trees -/

mutual
/-- The tree that the text of a value has. -/
def tree : Json → Tree
  | .null => .null
  | .bool b => .bool b
  | .number n => .number n.reread
  | .text value => .text (some value)
  | .array items => .array (trees items)
  | .object members => .object (memberTrees members)
def trees : List Json → List Tree
  | [] => []
  | item :: rest => item.tree :: trees rest
def memberTrees : List (String × Json) → List (Option String × Tree)
  | [] => []
  | (key, value) :: rest => (some key, value.tree) :: memberTrees rest
end

section
open Dossier.Json.Tree

theorem run_append (progress : Progress) (first rest : List Token) :
    progress.run (first ++ rest) = (progress.run first).bind (·.run rest) := by
  induction first generalizing progress with
  | nil => rfl
  | cons token others ih => simp only [List.cons_append, Progress.run, Option.bind_assoc, ih]

theorem tokens_head (value : Json) : ∃ token others, value.tokens = token :: others ∧ token ≠ .endArray := by
  cases value <;> exact ⟨_, _, rfl, by simp⟩

theorem tokensItems_head (item : Json) (rest : List Json) :
    ∃ token others, tokensItems (item :: rest) = token :: others ∧ token ≠ .endArray := by
  obtain ⟨token, others, same, noEnd⟩ := tokens_head item
  cases rest with
  | nil => exact ⟨token, others, same, noEnd⟩
  | cons next more => exact ⟨token, _, by rw [tokensItems, same]; rfl, noEnd⟩

/-- Where a first item is called for, it is read as a later one would be. -/
theorem run_firstItem {token : Token} (noEnd : token ≠ .endArray) (outer : List Frame)
    (others : List Token) :
    (Progress.firstItem outer).run (token :: others) =
      (Progress.value (.array [] :: outer)).run (token :: others) := by
  have step : (Progress.firstItem outer).step token = (Progress.value (.array [] :: outer)).step token := by
    cases token with
    | endArray => exact absurd rfl noEnd
    | _ => rfl
  simp only [Progress.run, step]

/-- A key and a colon call for the value of a member. -/
theorem run_key {progress : Progress} {done : List (Option String × Tree)} {outer : List Frame}
    (named : ∀ key, progress.step (.text key) = some (.colon done key outer)) (key : String)
    (more : List Token) :
    progress.run (.text (some key) :: .colon :: more) =
      (Progress.value (.object done (some key) :: outer)).run more := by
  rw [Progress.run, named, Option.bind_some]
  rfl

mutual
/-- The tokens of a value, where one is called for, are read as its tree. -/
theorem run_value : (value : Json) → ∀ (outer : List Frame),
    (Progress.value outer).run value.tokens = some (.finish value.tree outer)
  | .null => fun _ => rfl
  | .bool b => fun _ => rfl
  | .number n => fun _ => rfl
  | .text value => fun _ => rfl
  | .array [] => fun _ => rfl
  | .array (item :: rest) => by
    intro outer
    obtain ⟨token, others, same, noEnd⟩ := tokensItems_head item rest
    have inner := run_items (item :: rest) (by simp) [] outer
    have first := run_firstItem noEnd outer (others ++ [.endArray])
    rw [← List.cons_append, ← same] at first
    rw [tokens, List.cons_append]
    exact first.trans inner
  | .object [] => fun _ => rfl
  | .object (member :: rest) => by
    intro outer
    exact run_members (member :: rest) (by simp) (.firstKey outer) [] outer fun _ => rfl
theorem run_items : (items : List Json) → items ≠ [] → ∀ (done : List Tree) (outer : List Frame),
    (Progress.value (.array done :: outer)).run (tokensItems items ++ [.endArray]) =
      some (.finish (.array (done.reverse ++ trees items)) outer)
  | [] => fun nonempty => absurd rfl nonempty
  | [item] => by
    intro _ done outer
    have put : Progress.finish item.tree (.array done :: outer) = .more (.array (item.tree :: done)) outer := rfl
    rw [tokensItems, run_append, run_value item, Option.bind_some, put]
    simp [Progress.run, Progress.step, trees]
  | item :: next :: rest => by
    intro _ done outer
    have put : Progress.finish item.tree (.array done :: outer) = .more (.array (item.tree :: done)) outer := rfl
    have later := run_items (next :: rest) (by simp) (item.tree :: done) outer
    rw [tokensItems, List.append_assoc, run_append, run_value item, Option.bind_some, put]
    simp only [List.cons_append, Progress.run, Progress.step, Option.bind_some]
    rw [later]
    simp [trees]
/-- The same for members, where a key is called for. -/
theorem run_members : (members : List (String × Json)) → members ≠ [] →
    ∀ (progress : Progress) (done : List (Option String × Tree)) (outer : List Frame),
      (∀ key, progress.step (.text key) = some (.colon done key outer)) →
        progress.run (tokensMembers members ++ [.endObject]) =
          some (.finish (.object (done.reverse ++ memberTrees members)) outer)
  | [] => fun nonempty => absurd rfl nonempty
  | [(key, value)] => by
    intro _ progress done outer named
    have put : Progress.finish value.tree (.object done (some key) :: outer) =
        .more (.object ((some key, value.tree) :: done) (some key)) outer := rfl
    rw [tokensMembers, List.cons_append, List.cons_append, run_key named, run_append, run_value value,
      Option.bind_some, put]
    simp [Progress.run, Progress.step, memberTrees]
  | (key, value) :: next :: rest => by
    intro _ progress done outer named
    have put : Progress.finish value.tree (.object done (some key) :: outer) =
        .more (.object ((some key, value.tree) :: done) (some key)) outer := rfl
    have later := run_members (next :: rest) (by simp) (.key ((some key, value.tree) :: done) outer)
      ((some key, value.tree) :: done) outer fun _ => rfl
    rw [tokensMembers, List.cons_append, List.cons_append, List.cons_append, List.cons_append,
      List.append_assoc, run_key named, run_append, run_value value, Option.bind_some, put]
    simp only [List.cons_append, Progress.run, Progress.step, Option.bind_some]
    rw [later]
    simp [memberTrees]
end

theorem tree_of_render (value : Json) : Tree.parse? value.render = some value.tree := by
  rw [Tree.parse?, scan_render, Option.bind_some, Tree.ofTokens?, run_value]
  rfl

end

/-! ### Values -/

mutual
/-- What a value becomes when its text is read, as many levels deep as may be nested. -/
def reread : (levels : Nat) → Json → Option Json
  | _, .null => some .null
  | _, .bool b => some (.bool b)
  | _, .number n => n.reread.map .number
  | _, .text value => some (.text value)
  | levels, .array items => match levels with
    | 0 => none
    | levels + 1 => (rereadItems levels items).map .array
  | levels, .object members => match levels with
    | 0 => none
    | levels + 1 => (rereadMembers levels members).map .object
def rereadItems : (levels : Nat) → List Json → Option (List Json)
  | _, [] => some []
  | levels, item :: rest => do return (← item.reread levels) :: (← rereadItems levels rest)
def rereadMembers : (levels : Nat) → List (String × Json) → Option (List (String × Json))
  | _, [] => some []
  | levels, (key, value) :: rest => do
    return (key, ← value.reread levels) :: (← rereadMembers levels rest)
end

theorem keys_of_rereadMembers {levels : Nat} {members read : List (String × Json)}
    (found : rereadMembers levels members = some read) : read.map Prod.fst = members.map Prod.fst := by
  induction members generalizing read with
  | nil =>
    cases found
    rfl
  | cons member rest ih =>
    obtain ⟨key, value⟩ := member
    simp only [rereadMembers, Option.bind_eq_bind, Option.bind_eq_some_iff] at found
    obtain ⟨_, _, others, later, finished⟩ := found
    cases finished
    simp [ih later]

mutual
theorem value?_tree : (value : Json) → value.Ordered → ∀ levels,
    value.tree.value? levels = value.reread levels
  | .null => fun _ _ => rfl
  | .bool b => fun _ _ => rfl
  | .number n => fun _ _ => rfl
  | .text value => fun _ _ => rfl
  | .array items => by
    intro ordered levels
    cases levels with
    | zero => rfl
    | succ levels =>
      simp only [tree, Tree.value?, reread, values?_trees items ordered levels]
  | .object members => by
    intro ordered levels
    cases levels with
    | zero => rfl
    | succ levels =>
      simp only [tree, Tree.value?, reread, memberValues?_trees members ordered.2 levels]
      refine Option.map_congr fun read found => ?_
      have keys : Keyed.Ordered read := by
        rw [Keyed.ordered_iff_keys, Keyed.keys, keys_of_rereadMembers found]
        exact Keyed.ordered_iff_keys.mp ordered.1
      rw [Keyed.ofEntries_of_ordered keys]
theorem values?_trees : (items : List Json) → OrderedItems items → ∀ levels,
    Tree.values? levels (trees items) = rereadItems levels items
  | [] => fun _ _ => rfl
  | item :: rest => by
    intro ordered levels
    simp only [trees, Tree.values?, rereadItems, value?_tree item ordered.1, values?_trees rest ordered.2]
theorem memberValues?_trees : (members : List (String × Json)) → OrderedMembers members → ∀ levels,
    Tree.memberValues? levels (memberTrees members) = rereadMembers levels members
  | [] => fun _ _ => rfl
  | (key, value) :: rest => by
    intro ordered levels
    simp only [memberTrees, Tree.memberValues?, rereadMembers, value?_tree value ordered.1,
      memberValues?_trees rest ordered.2]
    rfl
end

/-- The text of a value is read as the value with its numbers reread. -/
theorem parse?_render (value : Json) (ordered : value.Ordered) :
    parse? value.render = value.reread nestingLimit := by
  rw [parse?, read?, tree_of_render, Option.bind_some, value?_tree value ordered]

end Dossier.Json
