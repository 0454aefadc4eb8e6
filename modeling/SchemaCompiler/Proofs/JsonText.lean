import SchemaCompiler.Proofs.JsonSpelling

/-!
# JSON texts hold what was written

The text of a value is cut into its tokens again and the tokens are put
together to the same value, as long as it does not nest too deep.  Conversely
every value that is read from a text is spelled and within that depth.
-/

namespace SchemaCompiler.Json

open List

variable {opened : List Opened} {members : List (String × Json)} {c : Char} {token : Token}
  {cs rest spelling : List Char} {value j : Json} {done more : List Token} {items : List Json}
  {wanted : Wanted} {level : Nat} {next : Building}

/-! ## Cutting a rendered value into tokens -/

mutual

/-- The tokens of a value. -/
def tokens : Json → List Token
  | str spelling => [.str spelling]
  | arr items => .leftBracket :: (itemTokens items ++ [.rightBracket])
  | obj members => .leftBrace :: (memberTokens members ++ [.rightBrace])
  | scalar => [.scalar scalar]

def itemTokens : List Json → List Token
  | [] => []
  | [item] => tokens item
  | item :: next :: rest => tokens item ++ .comma :: itemTokens (next :: rest)

def memberTokens : List (String × Json) → List Token
  | [] => []
  | [(key, value)] => .str key :: .colon :: tokens value
  | (key, value) :: next :: rest =>
    .str key :: .colon :: (tokens value ++ .comma :: memberTokens (next :: rest))

end

/-- The tokens when the text ends in a state. -/
def lastToken : Lexing × List Token → Option (List Token)
  | (.between, done) => some done.reverse
  | (.word spelling, done) =>
    (word? spelling.reverse).map fun value => (Token.scalar value :: done).reverse
  | _ => none

def lexed (state : Lexing × List Token) (text : List Char) : Option (List Token) :=
  (text.foldlM lexStep state).bind lastToken

theorem tokens?_eq_lexed (text : List Char) : tokens? text = lexed (.between, []) text := by
  rw [tokens?, lexed]
  congr 1
  funext state
  rcases state with ⟨lexing, done⟩
  cases lexing with
  | word spelling =>
    simp only [lastToken]
    cases word? spelling.reverse with
    | none | some value => rfl
  | between | quoted spelling | escape spelling | unicode left spelling => rfl

theorem lexed_cons {state next : Lexing × List Token} (text : List Char)
    (h : lexStep state c = some next) : lexed state (c :: text) = lexed next text := by
  rw [lexed, foldlM_cons, h]
  rfl

/-- The character can stand inside a word. -/
def inWord (c : Char) : Bool :=
  !(isBlank c || (punctuation? c).isSome || c = '"')

/-- A word cannot go on here. -/
def Stops (text : List Char) : Prop :=
  ∀ c ∈ text.head?, inWord c = false

theorem lexBetween_of_inWord (done : List Token) (h : inWord c = true) :
    lexBetween done c = (.word [c], done) := by
  simp only [inWord, Bool.not_eq_true', Bool.or_eq_false_iff, decide_eq_false_iff_not,
    Option.isSome_eq_false_iff, Option.isNone_iff_eq_none] at h
  simp [lexBetween, h]

theorem lexStep_of_inWord (spelling : List Char) (done : List Token) (h : inWord c = true) :
    lexStep (.word spelling, done) c = some (.word (c :: spelling), done) := by
  rw [inWord, Bool.not_eq_true'] at h
  simp only [lexStep, h, Bool.false_eq_true, if_false]

theorem lexStep_of_stop (done : List Token) (hvalue : word? spelling.reverse = some value)
    (h : inWord c = false) :
    lexStep (.word spelling, done) c = some (lexBetween (.scalar value :: done) c) := by
  rw [inWord, Bool.not_eq_false'] at h
  simp only [lexStep, h, if_true, hvalue]
  rfl

/-- A word that is followed by something else is one token. -/
theorem lexed_word_rest {more : List Char} (hmore : more.all inWord = true)
    (hvalue : word? (spelling.reverse ++ more) = some value) (hrest : Stops rest) :
    lexed (.word spelling, done) (more ++ rest) =
      lexed (.between, .scalar value :: done) rest := by
  induction more generalizing spelling with
  | nil =>
    rw [append_nil] at hvalue
    cases rest with
    | nil => simp [lexed, lastToken, hvalue]
    | cons c rest =>
      have hstop := lexStep_of_stop done hvalue (hrest c rfl)
      rw [nil_append, lexed_cons rest hstop]
      exact (lexed_cons rest rfl).symm
  | cons c more ih =>
    rw [all_cons, Bool.and_eq_true] at hmore
    rw [cons_append, lexed_cons _ (lexStep_of_inWord spelling done hmore.1)]
    apply ih hmore.2
    simpa using hvalue

theorem lexed_word (hspelling : spelling.all inWord = true) (hvalue : word? spelling = some value)
    (hrest : Stops rest) :
    lexed (.between, done) (spelling ++ rest) = lexed (.between, .scalar value :: done) rest := by
  cases spelling with
  | nil => cases hvalue
  | cons c more =>
    rw [all_cons, Bool.and_eq_true] at hspelling
    have hstep : lexStep (.between, done) c = some (.word [c], done) :=
      congrArg some (lexBetween_of_inWord done hspelling.1)
    rw [cons_append, lexed_cons _ hstep]
    exact lexed_word_rest hspelling.2 hvalue hrest

/-- A spelling up to its closing quote is one token. -/
theorem lexed_quoted_rest {before : List Char} (h : Spelling spelling) :
    lexed (.quoted before, done) (spelling ++ '"' :: rest) =
      lexed (.between, .str (String.ofList (before.reverse ++ spelling)) :: done) rest := by
  induction h generalizing before with
  | nil =>
    rw [append_nil]
    exact lexed_cons rest rfl
  | @plain c more hquote hbackslash hcontrol _ ih =>
    have hstep : lexStep (.quoted before, done) c = some (.quoted (c :: before), done) := by
      simp [lexStep, hquote, hbackslash, hcontrol]
    rw [cons_append, lexed_cons _ hstep, ih]
    simp
  | @short c more hc _ ih =>
    have hstep : lexStep (.escape ('\\' :: before), done) c =
        some (.quoted (c :: '\\' :: before), done) := by
      have hu : c ≠ 'u' := by
        rintro rfl
        exact absurd hc (by decide)
      simp only [lexStep, if_neg hu, if_pos hc]
    rw [cons_append, cons_append, lexed_cons _ rfl, lexed_cons _ hstep, ih]
    simp
  | @unicode a b c d more hdigits _ ih =>
    have hdigit (left : Nat) (so : List Char) {x : Char} (hx : x ∈ [a, b, c, d]) :
        lexStep (.unicode (left + 2) so, done) x = some (.unicode (left + 1) (x :: so), done) := by
      simp [lexStep, hdigits x hx]
    have hlast (so : List Char) :
        lexStep (.unicode 1 so, done) d = some (.quoted (d :: so), done) := by
      simp [lexStep, hdigits d]
    simp only [cons_append]
    rw [lexed_cons _ rfl, lexed_cons _ rfl, lexed_cons _ (hdigit 2 _ (by simp)),
      lexed_cons _ (hdigit 1 _ (by simp)), lexed_cons _ (hdigit 0 _ (by simp)),
      lexed_cons _ (hlast _), ih]
    simp

theorem lexed_quoted {spelling : String} (rest : List Char) (done : List Token)
    (h : Spelling spelling.toList) :
    lexed (.between, done) ('"' :: (spelling.toList ++ '"' :: rest)) =
      lexed (.between, .str spelling :: done) rest := by
  have hstep : lexStep (.between, done) '"' = some (.quoted [], done) := rfl
  rw [lexed_cons _ hstep, lexed_quoted_rest h]
  simp

theorem lexed_punctuation {rest : List Char} {done : List Token} (hblank : isBlank c = false)
    (hc : punctuation? c = some token) :
    lexed (.between, done) (c :: rest) = lexed (.between, token :: done) rest := by
  apply lexed_cons
  simp [lexStep, lexBetween, hblank, hc]

theorem stops_cons (h : punctuation? c = some token) : Stops (c :: rest) := by
  intro x hx
  obtain rfl : c = x := by simpa using hx
  simp [inWord, h]

/-! ### Numbers are words -/

theorem mem_of_not_inWord (h : inWord c = false) :
    c ∈ [' ', '\t', '\n', '\r', '{', '}', '[', ']', ',', ':', '"'] := by
  simp only [inWord, Bool.not_eq_false', Bool.or_eq_true, isBlank, decide_eq_true_eq] at h
  rcases h with ((((rfl | rfl) | rfl) | rfl) | h) | rfl
  · decide
  · decide
  · decide
  · decide
  · unfold punctuation? at h
    split at h
    all_goals first
      | decide
      | cases h
  · decide

theorem inWord_of_isDigit (h : c.isDigit = true) : inWord c = true := by
  by_contra hc
  have hmem := mem_of_not_inWord (Bool.eq_false_iff.mpr hc)
  have hdigits : [' ', '\t', '\n', '\r', '{', '}', '[', ']', ',', ':', '"'].all
      (fun x => !x.isDigit) = true := by decide
  simpa [h] using all_eq_true.mp hdigits c hmem

theorem all_inWord_of_digitsThen {next : List Char → Bool}
    (hnext : ∀ rest, next rest = true → rest.all inWord = true) (h : digitsThen next cs = true) :
    cs.all inWord = true := by
  rw [digitsThen, Bool.and_eq_true] at h
  rw [← takeWhile_append_dropWhile (p := Char.isDigit) (l := cs), all_append, Bool.and_eq_true]
  refine ⟨all_eq_true.mpr fun c hc => ?_, hnext _ h.2⟩
  exact inWord_of_isDigit (all_eq_true.mp all_takeWhile c hc)

theorem all_inWord_of_isEmpty (h : cs.isEmpty = true) : cs.all inWord = true := by
  rw [isEmpty_iff.mp h]
  rfl

theorem all_inWord_of_isExponent (h : isExponent cs = true) : cs.all inWord = true := by
  cases cs with
  | nil => rfl
  | cons e cs =>
    unfold isExponent at h
    rw [Bool.and_eq_true, Bool.or_eq_true, beq_iff_eq, beq_iff_eq] at h
    obtain ⟨he, hcs⟩ := h
    have hdigits : cs.all inWord = true := by
      split at hcs
      all_goals
        have hrest := all_inWord_of_digitsThen (fun _ => all_inWord_of_isEmpty) hcs
        simpa [show inWord '+' = true by decide, show inWord '-' = true by decide] using hrest
    rw [all_cons, hdigits]
    rcases he with rfl | rfl
    all_goals decide

theorem all_inWord_of_isFraction (h : isFraction cs = true) : cs.all inWord = true := by
  unfold isFraction at h
  split at h
  · have hrest := all_inWord_of_digitsThen (fun _ => all_inWord_of_isExponent) h
    rw [all_cons, hrest]
    decide
  · exact all_inWord_of_isExponent h

theorem all_inWord_of_isUnsigned (h : isUnsigned cs = true) : cs.all inWord = true := by
  unfold isUnsigned at h
  split at h
  · rw [all_cons, all_inWord_of_isFraction h]
    decide
  · exact all_inWord_of_digitsThen (fun _ => all_inWord_of_isFraction) h

theorem all_inWord_of_isNumber (h : isNumber cs = true) : cs.all inWord = true := by
  unfold isNumber at h
  split at h
  · rw [all_cons, all_inWord_of_isUnsigned h]
    decide
  · exact all_inWord_of_isUnsigned h

theorem word?_of_isNumber {spelling : String} (h : isNumber spelling.toList = true) :
    word? spelling.toList = some (num spelling) := by
  have hne {word : List Char} (hword : isNumber word = false) : spelling.toList ≠ word := by
    intro heq
    rw [heq, hword] at h
    cases h
  rw [word?, if_neg (hne rfl), if_neg (hne rfl), if_neg (hne rfl), if_pos h, String.ofList_toList]

/-! ### Values -/

/-- The text, whatever follows, is cut into the tokens. -/
def CutsInto (text : List Char) (found : List Token) : Prop :=
  ∀ (rest : List Char) (done : List Token), Stops rest →
    lexed (.between, done) (text ++ rest) = lexed (.between, found.reverse ++ done) rest

/-- Texts with commas between them. -/
theorem cutsInto_commas {α : Type} {as : List α} {text : α → List Char} {found : α → List Token}
    {texts : List α → List Char} {all : List α → List Token} (hnil : texts [] = [] ∧ all [] = [])
    (hone : ∀ a, texts [a] = text a ∧ all [a] = found a)
    (hmore : ∀ a b as, texts (a :: b :: as) = text a ++ ',' :: texts (b :: as) ∧
      all (a :: b :: as) = found a ++ .comma :: all (b :: as))
    (h : ∀ a ∈ as, CutsInto (text a) (found a)) : CutsInto (texts as) (all as) := by
  intro rest done hrest
  induction as generalizing done with
  | nil => rw [hnil.1, hnil.2, nil_append, reverse_nil, nil_append]
  | cons a more ih =>
    obtain ⟨ha, hothers⟩ := forall_mem_cons.mp h
    cases more with
    | nil => rw [(hone a).1, (hone a).2, ha rest done hrest]
    | cons next more =>
      rw [(hmore a next more).1, (hmore a next more).2, append_assoc, cons_append,
        ha _ done (stops_cons rfl), lexed_punctuation rfl rfl, ih hothers]
      simp

theorem cutsInto_renderItems (h : ∀ item ∈ items, CutsInto (renderChars item) item.tokens) :
    CutsInto (renderItems items) (itemTokens items) :=
  cutsInto_commas ⟨rfl, rfl⟩ (fun _ => ⟨rfl, rfl⟩) (fun _ _ _ => ⟨rfl, rfl⟩) h

theorem cutsInto_renderMembers (hkeys : ∀ m ∈ members, Spelling m.1.toList)
    (h : ∀ m ∈ members, CutsInto (renderChars m.2) m.2.tokens) :
    CutsInto (renderMembers members) (memberTokens members) := by
  have hmember : ∀ m ∈ members, CutsInto ('"' :: (m.1.toList ++ '"' :: ':' :: renderChars m.2))
      (.str m.1 :: .colon :: m.2.tokens) := by
    intro m hm rest done hrest
    simp only [cons_append, append_assoc]
    rw [lexed_quoted _ _ (hkeys m hm), lexed_punctuation rfl rfl, h m hm rest _ hrest]
    simp
  exact cutsInto_commas ⟨rfl, rfl⟩ (fun _ => ⟨rfl, rfl⟩)
    (fun _ _ _ => by simp [renderMembers, memberTokens]) hmember

theorem Spelled.cutsInto (h : j.Spelled) : CutsInto (renderChars j) j.tokens := by
  intro rest done hrest
  induction h generalizing rest done with
  | null => exact lexed_word (by decide) rfl hrest
  | bool value =>
    cases value with
    | true | false => exact lexed_word (by decide) rfl hrest
  | num h => exact lexed_word (all_inWord_of_isNumber h) (word?_of_isNumber h) hrest
  | str h =>
    simp only [renderChars, cons_append, append_assoc, nil_append]
    exact lexed_quoted rest done h
  | arr h ih =>
    simp only [renderChars, cons_append, append_assoc, nil_append]
    rw [lexed_punctuation rfl rfl, cutsInto_renderItems ih _ _ (stops_cons rfl),
      lexed_punctuation rfl rfl]
    simp [tokens]
  | obj hkeys hvalues ih =>
    simp only [renderChars, cons_append, append_assoc, nil_append]
    rw [lexed_punctuation rfl rfl, cutsInto_renderMembers hkeys ih _ _ (stops_cons rfl),
      lexed_punctuation rfl rfl]
    simp [tokens]

theorem Spelled.tokens?_render (h : j.Spelled) : tokens? j.render.toList = some j.tokens := by
  have hcut := h.cutsInto [] [] (by simp [Stops])
  rw [append_nil, append_nil] at hcut
  rw [tokens?_eq_lexed, render, String.toList_ofList, hcut]
  simp [lexed, lastToken]

/-! ## Putting the tokens together -/

/-- The value that is built from tokens on top of a state. -/
def built (state : Building) (more : List Token) : Option Json :=
  (more.foldlM buildStep state).bind fun
    | .done value => some value
    | .wanting .. => none

theorem build?_eq_built (more : List Token) : build? more = built (.wanting .value []) more := by
  rw [build?, built]
  rfl

theorem built_cons {state : Building} (more : List Token) (h : buildStep state token = some next) :
    built state (token :: more) = built next more := by
  rw [built, foldlM_cons, h]
  rfl

/-- Where a value may begin: what follows, and the arrays and objects that are open. -/
inductive Begins : Wanted → List Opened → Prop
  | value (opened : List Opened) : Begins .value opened
  | first (opened : List Opened) : Begins .valueOrEnd (.arr [] :: opened)

/-- The tokens of the value, whatever follows, complete the value wherever one may begin. -/
def BuildsBack (j : Json) : Prop :=
  ∀ (wanted : Wanted) (opened : List Opened) (more : List Token), Begins wanted opened →
    opened.length + j.depth ≤ maxDepth →
    built (.wanting wanted opened) (j.tokens ++ more) = built (complete j opened) more

theorem Begins.buildStep_eq (h : Begins wanted opened) (htoken : token ≠ .rightBracket) :
    buildStep (.wanting wanted opened) token = startValue opened token := by
  cases h with
  | value => rfl
  | first =>
    cases token with
    | rightBracket => exact absurd rfl htoken
    | _ => rfl

theorem built_itemTokens {item : Json} (h : ∀ x ∈ item :: items, x.BuildsBack) {done : List Json}
    (hbegins : Begins wanted (.arr done :: opened))
    (hdepth : ∀ x ∈ item :: items, opened.length + 1 + x.depth ≤ maxDepth) :
    built (.wanting wanted (.arr done :: opened))
        (itemTokens (item :: items) ++ .rightBracket :: more) =
      built (complete (.arr (done.reverse ++ item :: items)) opened) more := by
  induction items generalizing item done wanted with
  | nil =>
    have hend : buildStep (complete item (.arr done :: opened)) .rightBracket =
        some (complete (.arr (done.reverse ++ [item])) opened) := by
      rw [← reverse_cons]
      rfl
    rw [itemTokens, h item mem_cons_self _ _ _ hbegins (hdepth item mem_cons_self),
      built_cons more hend]
  | cons next items ih =>
    have hcomma : buildStep (complete item (.arr done :: opened)) .comma =
        some (.wanting .value (.arr (item :: done) :: opened)) := rfl
    rw [itemTokens, append_assoc, cons_append,
      h item mem_cons_self _ _ _ hbegins (hdepth item mem_cons_self),
      built_cons _ hcomma, ih (fun x hx => h x (mem_cons_of_mem item hx)) (.value _)
        fun x hx => hdepth x (mem_cons_of_mem item hx)]
    simp

/-- Where a member may begin after members that are done. -/
inductive BeginsMember : Wanted → List (String × Json) → Prop
  | first : BeginsMember .keyOrEnd []
  | next (done : List (String × Json)) : BeginsMember (.key done) done

theorem BeginsMember.built_member {done : List (String × Json)} {member : String × Json}
    (hbegins : BeginsMember wanted done) (h : member.2.BuildsBack)
    (hdepth : opened.length + 1 + member.2.depth ≤ maxDepth) (more : List Token) :
    built (.wanting wanted opened) (.str member.1 :: .colon :: (member.2.tokens ++ more)) =
      built (.wanting .separatorOrEnd (.obj (member :: done) "" :: opened)) more := by
  have hkey : built (.wanting wanted opened)
      (.str member.1 :: .colon :: (member.2.tokens ++ more)) =
      built (.wanting .value (.obj done member.1 :: opened)) (member.2.tokens ++ more) := by
    cases hbegins with
    | first | next => rfl
  rw [hkey, h _ (.obj done member.1 :: opened) _ (.value _) hdepth]
  rfl

theorem built_memberTokens {member : String × Json} (h : ∀ m ∈ member :: members, m.2.BuildsBack)
    {done : List (String × Json)} (hbegins : BeginsMember wanted done)
    (hdepth : ∀ m ∈ member :: members, opened.length + 1 + m.2.depth ≤ maxDepth) :
    built (.wanting wanted opened) (memberTokens (member :: members) ++ .rightBrace :: more) =
      built (complete (.obj (done.reverse ++ member :: members)) opened) more := by
  have hmember := hbegins.built_member (h member mem_cons_self)
    (hdepth member mem_cons_self)
  induction members generalizing member done wanted with
  | nil =>
    rw [memberTokens, cons_append, cons_append, hmember, ← reverse_cons]
    exact built_cons more rfl
  | cons next members ih =>
    have hrest := fun m hm => h m (mem_cons_of_mem member hm)
    have hfits := fun m hm => hdepth m (mem_cons_of_mem member hm)
    rw [memberTokens, cons_append, cons_append, append_assoc, cons_append,
      hmember, built_cons _ rfl, ih hrest (.next _) hfits ((BeginsMember.next _).built_member
        (hrest next mem_cons_self) (hfits next mem_cons_self))]
    simp

theorem buildsBack_scalar (htokens : j.tokens = [.scalar j]) : j.BuildsBack := by
  intro wanted opened more hbegins _
  rw [htokens]
  exact built_cons more (hbegins.buildStep_eq (by simp))

theorem buildsBack (j : Json) : j.BuildsBack := by
  induction j using inductionOn with
  | null | bool value | num spelling => exact buildsBack_scalar rfl
  | str spelling =>
    intro wanted opened more hbegins _
    exact built_cons more (hbegins.buildStep_eq (by simp))
  | arr items ih =>
    intro wanted opened more hbegins hdepth
    have hlength : opened.length < maxDepth := by
      rw [depth] at hdepth
      omega
    have hstart : buildStep (.wanting wanted opened) .leftBracket =
        some (.wanting .valueOrEnd (.arr [] :: opened)) := by
      rw [hbegins.buildStep_eq (by simp), startValue, if_pos hlength]
    rw [tokens, cons_append, append_assoc, built_cons _ hstart]
    cases items with
    | nil => exact built_cons more rfl
    | cons item items =>
      refine built_itemTokens ih (.first opened) fun x hx => ?_
      have := depth_item_lt hx
      omega
  | obj members ih =>
    intro wanted opened more hbegins hdepth
    have hlength : opened.length < maxDepth := by
      rw [depth] at hdepth
      omega
    have hstart : buildStep (.wanting wanted opened) .leftBrace =
        some (.wanting .keyOrEnd opened) := by
      rw [hbegins.buildStep_eq (by simp), startValue, if_pos hlength]
    rw [tokens, cons_append, append_assoc, built_cons _ hstart]
    cases members with
    | nil => exact built_cons more rfl
    | cons member members =>
      refine built_memberTokens ih .first fun x hx => ?_
      have := depth_member_lt hx
      omega

/-- The value can stand in a text: it is spelled and does not nest too deep. -/
structure Sound (j : Json) : Prop where
  spelled : j.Spelled
  depth_le : j.depth ≤ maxDepth

theorem Sound.parse?_of_tokens? (h : j.Sound) {text : String}
    (htokens : tokens? text.toList = some j.tokens) : parse? text = some j := by
  have hbuilt := buildsBack j .value [] [] (.value []) (by simpa using h.depth_le)
  rw [append_nil] at hbuilt
  rw [parse?, htokens]
  exact (build?_eq_built _).trans hbuilt

/-- The text of a value holds the value. -/
theorem Sound.parse?_render (h : j.Sound) : parse? j.render = some j :=
  h.parse?_of_tokens? h.spelled.tokens?_render

/-! ## What is read is spelled -/

/-- What every step of a fold keeps, the whole fold keeps. -/
theorem foldlM_preserves {α β : Type} {step : β → α → Option β} {P : β → Prop} {as : List α}
    (hstep : ∀ b, ∀ a ∈ as, ∀ b', P b → step b a = some b' → P b') {first last : β}
    (hfirst : P first) (h : as.foldlM step first = some last) : P last := by
  induction as generalizing first with
  | nil =>
    obtain rfl : first = last := by simpa using h
    exact hfirst
  | cons a as ih =>
    rw [foldlM_cons] at h
    obtain ⟨next, hnext, hrest⟩ := Option.bind_eq_some_iff.mp h
    exact ih (fun b x hx => hstep b x (mem_cons_of_mem a hx))
      (hstep first a mem_cons_self next hfirst hnext) hrest

def Token.Spelled : Token → Prop
  | .scalar value => value.Spelled ∧ value.depth = 0
  | .str spelling => Spelling spelling.toList
  | _ => True

/-- What was read of a text that is still open can be completed to a spelling. -/
def Lexing.Spelled : Lexing → Prop
  | .quoted spelling => Spelling spelling.reverse
  | .escape spelling => ∃ before, spelling = '\\' :: before ∧ Spelling before.reverse
  | .unicode left spelling => ∃ before digits, spelling = digits ++ 'u' :: '\\' :: before ∧
      Spelling before.reverse ∧ (∀ c ∈ digits, (hexValue? c).isSome) ∧
      1 ≤ left ∧ digits.length + left = 4
  | _ => True

def LexesSpelled (state : Lexing × List Token) : Prop :=
  state.1.Spelled ∧ ∀ token ∈ state.2, token.Spelled

theorem spelled_of_word? (h : word? spelling = some value) : value.Spelled ∧ value.depth = 0 := by
  rw [word?] at h
  split_ifs at h with _ _ _ hnumber
  · cases h
    exact ⟨.null, rfl⟩
  · cases h
    exact ⟨.bool true, rfl⟩
  · cases h
    exact ⟨.bool false, rfl⟩
  · cases h
    exact ⟨.num (by rwa [String.toList_ofList]), rfl⟩

theorem spelled_of_punctuation? (h : punctuation? c = some token) : token.Spelled := by
  unfold punctuation? at h
  split at h
  all_goals
    cases h
    try trivial

theorem lexesSpelled_lexBetween (c : Char) (h : ∀ token ∈ done, token.Spelled) :
    LexesSpelled (lexBetween done c) := by
  rw [lexBetween]
  by_cases hblank : isBlank c = true
  · rw [if_pos hblank]
    exact ⟨trivial, h⟩
  · rw [if_neg hblank]
    cases htoken : punctuation? c with
    | some token =>
      exact ⟨trivial, forall_mem_cons.mpr ⟨spelled_of_punctuation? htoken, h⟩⟩
    | none =>
      dsimp only
      split_ifs
      · exact ⟨.nil, h⟩
      · exact ⟨trivial, h⟩

theorem LexesSpelled.step {state next : Lexing × List Token} (h : LexesSpelled state)
    (hstep : lexStep state c = some next) : LexesSpelled next := by
  obtain ⟨lexing, done⟩ := state
  obtain ⟨hlexing, hdone⟩ := h
  cases lexing with
  | between =>
    cases hstep
    exact lexesSpelled_lexBetween c hdone
  | word spelling =>
    rw [lexStep] at hstep
    split_ifs at hstep with hstop
    · obtain ⟨value, hvalue, hnext⟩ := Option.bind_eq_some_iff.mp hstep
      cases hnext
      exact lexesSpelled_lexBetween c (forall_mem_cons.mpr ⟨spelled_of_word? hvalue, hdone⟩)
    · cases hstep
      exact ⟨trivial, hdone⟩
  | quoted spelling =>
    rw [lexStep] at hstep
    split_ifs at hstep with hquote hbackslash hcontrol
    · cases hstep
      refine ⟨trivial, forall_mem_cons.mpr ⟨?_, hdone⟩⟩
      rw [Token.Spelled, String.toList_ofList]
      exact hlexing
    · cases hstep
      exact ⟨⟨spelling, rfl, hlexing⟩, hdone⟩
    · cases hstep
      refine ⟨?_, hdone⟩
      rw [Lexing.Spelled, reverse_cons]
      exact hlexing.append (.plain hquote hbackslash hcontrol .nil)
  | escape spelling =>
    obtain ⟨before, rfl, hbefore⟩ := hlexing
    rw [lexStep] at hstep
    split_ifs at hstep with hu hshort
    · cases hstep
      exact ⟨⟨before, [], rfl, hbefore, by simp, by decide, rfl⟩, hdone⟩
    · cases hstep
      refine ⟨?_, hdone⟩
      rw [Lexing.Spelled, reverse_cons, reverse_cons, append_assoc]
      exact hbefore.append (.short hshort .nil)
  | unicode left spelling =>
    obtain ⟨before, digits, rfl, hbefore, hdigits, hleft, hlength⟩ := hlexing
    rw [lexStep] at hstep
    split_ifs at hstep with hhex hlast
    · cases hstep
      obtain ⟨x, y, z, rfl⟩ := length_eq_three.mp (show digits.length = 3 by omega)
      refine ⟨?_, hdone⟩
      have hall : ∀ d ∈ [z, y, x, c], (hexValue? d).isSome := by
        intro d hd
        simp only [mem_cons, not_mem_nil, or_false] at hd hdigits
        rcases hd with rfl | rfl | rfl | rfl
        · exact hdigits _ (.inr (.inr rfl))
        · exact hdigits _ (.inr (.inl rfl))
        · exact hdigits _ (.inl rfl)
        · exact hhex
      simpa [Lexing.Spelled] using hbefore.append (.unicode hall .nil)
    · cases hstep
      refine ⟨⟨before, c :: digits, rfl, hbefore, ?_, ?_, ?_⟩, hdone⟩
      · exact forall_mem_cons.mpr ⟨hhex, hdigits⟩
      · omega
      · rw [length_cons]
        omega

theorem spelled_of_tokens? {text : List Char} {found : List Token} (h : tokens? text = some found) :
    ∀ token ∈ found, token.Spelled := by
  rw [tokens?_eq_lexed, lexed] at h
  obtain ⟨⟨lexing, done⟩, hfold, hlast⟩ := Option.bind_eq_some_iff.mp h
  have hstart : LexesSpelled (.between, []) := ⟨trivial, by simp⟩
  have hspelled : LexesSpelled (lexing, done) :=
    foldlM_preserves (fun _ _ _ _ hstate hstep => hstate.step hstep) hstart hfold
  cases lexing with
  | between =>
    cases hlast
    intro token htoken
    exact hspelled.2 token (mem_reverse.mp htoken)
  | word spelling =>
    obtain ⟨value, hvalue, rfl⟩ := Option.map_eq_some_iff.mp hlast
    intro token htoken
    rcases mem_cons.mp (mem_reverse.mp htoken) with rfl | htoken
    · exact spelled_of_word? hvalue
    · exact hspelled.2 token htoken
  | quoted spelling | escape spelling | unicode left spelling => cases hlast

/-- The value is spelled and fits inside so many open arrays and objects. -/
def Fits (level : Nat) (j : Json) : Prop :=
  j.Spelled ∧ level + j.depth ≤ maxDepth

theorem fits_arr (hlevel : level < maxDepth) (h : ∀ item ∈ items, item.Fits (level + 1)) :
    (arr items).Fits level := by
  refine ⟨.arr fun item hitem => (h item hitem).1, ?_⟩
  have hdepth : (arr items).depth ≤ maxDepth - (level + 1) + 1 := by
    rw [depth_arr_le]
    intro item hitem
    have := (h item hitem).2
    omega
  omega

/-- Members whose keys are spelled and whose values fit. -/
def MembersFit (level : Nat) (members : List (String × Json)) : Prop :=
  ∀ m ∈ members, Spelling m.1.toList ∧ m.2.Fits level

theorem MembersFit.obj (hlevel : level < maxDepth) (h : MembersFit (level + 1) members) :
    (obj members).Fits level := by
  refine ⟨.obj (fun m hm => (h m hm).1) fun m hm => (h m hm).2.1, ?_⟩
  have hdepth : (Json.obj members).depth ≤ maxDepth - (level + 1) + 1 := by
    rw [depth_obj_le]
    intro m hm
    have := (h m hm).2.2
    omega
  omega

def Opened.Fits (level : Nat) : Opened → Prop
  | .arr items => ∀ item ∈ items, item.Fits level
  | .obj members key => Spelling key.toList ∧ MembersFit level members

/-- Every open array and object has room for itself and holds what fits. -/
def StackFits : List Opened → Prop
  | [] => True
  | opened :: rest => rest.length < maxDepth ∧ opened.Fits (rest.length + 1) ∧ StackFits rest

/-- What an object that is not on the stack holds so far; `level` counts what is around it. -/
def Wanted.Fits (level : Nat) : Wanted → Prop
  | .key members => level < maxDepth ∧ MembersFit (level + 1) members
  | .keyOrEnd => level < maxDepth
  | .colon members spelling =>
    level < maxDepth ∧ Spelling spelling.toList ∧ MembersFit (level + 1) members
  | _ => True

def Building.Fits : Building → Prop
  | .wanting wanted opened => StackFits opened ∧ wanted.Fits opened.length
  | .done value => value.Fits 0

theorem Fits.complete (h : value.Fits opened.length) (hopened : StackFits opened) :
    (complete value opened).Fits := by
  cases opened with
  | nil => exact h
  | cons frame rest =>
    obtain ⟨hroom, hframe, hrest⟩ := hopened
    cases frame with
    | arr items => exact ⟨⟨hroom, forall_mem_cons.mpr ⟨h, hframe⟩, hrest⟩, trivial⟩
    | obj members key =>
      refine ⟨⟨hroom, ⟨.nil, ?_⟩, hrest⟩, trivial⟩
      exact forall_mem_cons.mpr ⟨⟨hframe.1, h⟩, hframe.2⟩

theorem Token.Spelled.startValue (htoken : token.Spelled) (hopened : StackFits opened)
    (hroom : opened.length ≤ maxDepth) (h : startValue opened token = some next) : next.Fits := by
  cases token with
  | scalar value =>
    cases h
    refine Fits.complete ⟨htoken.1, ?_⟩ hopened
    rw [htoken.2]
    exact hroom
  | str spelling =>
    cases h
    exact Fits.complete ⟨.str htoken, hroom⟩ hopened
  | leftBracket =>
    rw [Json.startValue] at h
    split_ifs at h with hlength
    cases h
    exact ⟨⟨hlength, by simp [Opened.Fits], hopened⟩, trivial⟩
  | leftBrace =>
    rw [Json.startValue] at h
    split_ifs at h with hlength
    cases h
    exact ⟨hopened, hlength⟩
  | _ => cases h

theorem StackFits.length_le (h : StackFits opened) : opened.length ≤ maxDepth := by
  cases opened with
  | nil => exact Nat.zero_le _
  | cons frame rest => exact h.1

theorem Building.Fits.step {state : Building} (h : state.Fits) (htoken : token.Spelled)
    (hstep : buildStep state token = some next) : next.Fits := by
  unfold buildStep at hstep
  split at hstep
  · cases hstep
  · exact htoken.startValue h.1 h.1.length_le hstep
  · cases hstep
    obtain ⟨⟨hroom, _, hrest⟩, _⟩ := h
    exact (fits_arr hroom (by simp)).complete hrest
  · exact htoken.startValue h.1 h.1.length_le hstep
  · cases hstep
    exact (MembersFit.obj h.2 (by simp [MembersFit])).complete h.1
  · cases hstep
    exact ⟨h.1, h.2, htoken, by simp [MembersFit]⟩
  · cases hstep
    exact ⟨h.1, h.2.1, htoken, h.2.2⟩
  · cases hstep
    exact ⟨⟨h.2.1, h.2.2, h.1⟩, trivial⟩
  · cases hstep
    exact ⟨h.1, trivial⟩
  · cases hstep
    obtain ⟨⟨hroom, hitems, hrest⟩, _⟩ := h
    exact (fits_arr hroom fun item hitem => hitems item (mem_reverse.mp hitem)).complete hrest
  · cases hstep
    obtain ⟨⟨hroom, hmembers, hrest⟩, _⟩ := h
    exact ⟨hrest, hroom, hmembers.2⟩
  · cases hstep
    obtain ⟨⟨hroom, hmembers, hrest⟩, _⟩ := h
    have hreverse : MembersFit _ _ := fun m hm => hmembers.2 m (mem_reverse.mp hm)
    exact (hreverse.obj hroom).complete hrest
  · cases hstep

/-- What a text holds is spelled and does not nest too deep. -/
theorem sound_of_parse? {text : String} (h : parse? text = some j) : j.Sound := by
  obtain ⟨found, hfound, hbuild⟩ := Option.bind_eq_some_iff.mp h
  rw [build?_eq_built, built] at hbuild
  obtain ⟨state, hfold, hdone⟩ := Option.bind_eq_some_iff.mp hbuild
  have hstart : Building.Fits (.wanting .value []) := ⟨trivial, trivial⟩
  have hstate : state.Fits :=
    foldlM_preserves (fun _ token htoken _ hfits hstep =>
      hfits.step (spelled_of_tokens? hfound token htoken) hstep) hstart hfold
  cases state with
  | wanting wanted opened => cases hdone
  | done value =>
    cases hdone
    exact ⟨hstate.1, by simpa using hstate.2⟩

theorem Sound.item (h : (arr items).Sound) {item : Json} (hitem : item ∈ items) : item.Sound := by
  have hdepth := depth_item_lt hitem
  cases h.spelled with
  | arr hitems => exact ⟨hitems item hitem, Nat.le_trans (Nat.le_of_lt hdepth) h.depth_le⟩

theorem Sound.member (h : (obj members).Sound) {m : String × Json} (hm : m ∈ members) :
    m.2.Sound := by
  have hdepth := depth_member_lt hm
  cases h.spelled with
  | obj _ hvalues => exact ⟨hvalues m hm, Nat.le_trans (Nat.le_of_lt hdepth) h.depth_le⟩

end SchemaCompiler.Json
