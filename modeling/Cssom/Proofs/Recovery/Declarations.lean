import Cssom.Proofs.Recovery.Balance
import Cssom.Proofs.Recovery.Silence
import Cssom.Proofs.SyntaxTree.Alone

/-!
# Declarations, whatever follows them

A declaration in a list is read evenly whether something follows the list or not: a name takes no
brace, a value tracks the brackets opened in it, and what is passed over counts braces, so all three
stop at the same token of the list or where it ends (`nameScan_balanced`, `valueScan_balanced`,
`passScan_balanced`). However it ends, a declaration takes the semicolon after it last
(`declaration_eq`); that is the one token of what follows that it may take. So reading on through a
list and what follows it comes to reading the list and then what follows (`accepted_continues`).
-/

namespace Cssom.Grammar

open Production Token

variable {tail : List Lexeme} {i j : Input}

/-! ### Names -/

/-- The scan of a name. -/
def nameScan : Scan String String where
  halts name view := endsName view.kind || (!name.isEmpty && view.spacing.isOpen)
  step name view := do
    skip
    pure (name ++ view.token.text)
  out := id

/-- A name is read by its scan. -/
theorem nameFrom_eq (rounds : Nat) (name : String) :
    nameFrom rounds name = nameScan.rounds rounds name := by
  induction rounds generalizing name with
  | zero => rfl
  | succ rounds ih =>
    rw [nameFrom, Scan.rounds]
    simp only [ih]
    rfl

/-- What ends a declaration ends its name. -/
theorem endsName_of_ends {kind : Kind} (h : endsRule kind = true ∨ kind = .eof) :
    endsName kind = true := by
  rcases h with h | rfl
  · cases kind <;> first | rfl | exact absurd h (by decide)
  · rfl

/-- A name holds no brace. -/
theorem nameScan_balanced :
    nameScan.Balanced tail fun _ opened => opened.count .closeCurly = 0 where
  ends name v _ hends := by
    simp [nameScan, endsName_of_ends hends]
  halts name opened i j hnone h hj := by
    rw [h.cut.view_eq hj]
    exact ⟨rfl, fun _ => hnone⟩
  step name opened i j hnone h hj hstop := by
    obtain ⟨opened', hstep, h'⟩ := h.advance hj
    have hends : endsName i.view.kind = false := by
      simp only [nameScan, Bool.or_eq_false_iff] at hstop
      exact hstop.1
    have hopen : i.view.kind ≠ .openCurly := fun hk => by simp [endsName, hk] at hends
    have hclose : i.view.kind ≠ .closeCurly := fun hk => by simp [endsName, hk] at hends
    refine ⟨name ++ i.view.token.text, i.advance, j.advance, opened', rfl, ?_, ?_, h',
      h.size_advance_lt hj⟩
    · rw [h.cut.view_eq hj]
      rfl
    · rw [count_openAfter hstep hopen hclose, hnone]

/-- The name of a declaration is read evenly. -/
theorem even_declarationName (htail : Ends tail) (h : Level tail i j) :
    (declarationName.read i).Even tail (declarationName.read j) := by
  obtain ⟨opened, hbeside, hnone⟩ := h
  have heven : ((nameScan.rounds i.size "").read i).Even tail
      ((nameScan.rounds j.size "").read j) :=
    nameScan_balanced.even htail (Nat.le_refl _) (Nat.le_refl _) hnone hbeside
  rw [← nameFrom_eq, ← nameFrom_eq] at heven
  exact heven

/-! ### What is passed over -/

/-- The scan over the rest of a declaration. -/
def passScan : Scan Unit Nat where
  halts depth view := view.atEnd || (depth = 0 && endsRule view.kind)
  step depth view := do
    skip
    pure (bracesAfter depth view.kind)
  out _ := ()

/-- The rest of a declaration is passed over by its scan. -/
theorem passDeclarationFrom_eq (rounds depth : Nat) :
    passDeclarationFrom rounds depth = passScan.rounds rounds depth := by
  induction rounds generalizing depth with
  | zero => rfl
  | succ rounds ih =>
    rw [passDeclarationFrom, Scan.rounds]
    simp only [ih]
    rfl

/-- What is passed over counts the braces that are open. -/
theorem passScan_balanced :
    passScan.Balanced tail fun depth opened => opened.count .closeCurly = depth where
  ends depth v hdepth hends := by
    obtain rfl : 0 = depth := hdepth
    rcases hends with hends | hends
    · simp [passScan, hends]
    · simp [passScan, View.atEnd, show v.token.kind = .eof from hends]
  halts depth opened i j hdepth h hj := by
    rw [h.cut.view_eq hj]
    refine ⟨rfl, fun hstop => ?_⟩
    simp only [passScan, h.atEnd_eq hj, Bool.false_or, Bool.and_eq_true, decide_eq_true_iff]
      at hstop
    exact hdepth.trans hstop.1
  step depth opened i j hdepth h hj _ := by
    obtain ⟨opened', hstep, h'⟩ := h.advance hj
    refine ⟨bracesAfter depth i.view.kind, i.advance, j.advance, opened', rfl, ?_, ?_, h',
      h.size_advance_lt hj⟩
    · rw [h.cut.view_eq hj]
      rfl
    · rw [count_openAfter_eq hstep, hdepth]

/-- The rest of a declaration is passed over evenly. -/
theorem even_passDeclaration (htail : Ends tail) (h : Level tail i j) :
    (passDeclaration.read i).Even tail (passDeclaration.read j) := by
  obtain ⟨opened, hbeside, hnone⟩ := h
  have heven := passScan_balanced.even htail (Nat.le_refl i.size) (Nat.le_refl j.size) hnone hbeside
  rw [← passDeclarationFrom_eq, ← passDeclarationFrom_eq] at heven
  exact heven

/-! ### Values -/

/-- The scan of the value of a declaration. -/
def valueScan : Scan ValueReading ValueReading where
  halts reading view :=
    view.atEnd || (reading.builder.depth = 0 && declarationEnd.contains view.kind)
  step reading view :=
    if reading.builder.depth = 0 && view.token.isMark '!' then takeImportance reading
    else takeValueToken reading
  out := id

/-- The value of a declaration is read by its scan. -/
theorem valueFrom_eq (rounds : Nat) (reading : ValueReading) :
    valueFrom declarationEnd rounds reading = valueScan.rounds rounds reading := by
  induction rounds generalizing reading with
  | zero => rfl
  | succ rounds ih =>
    rw [valueFrom, Scan.rounds]
    simp only [ih]
    refine congrArg (Production.view >>= ·) (funext fun view => ?_)
    refine ite_congr rfl (fun _ => rfl) fun _ => ?_
    exact (apply_ite (· >>= valueScan.rounds rounds) _ _ _).symm

/-- After the mark in a list, the word of importance is there in both inputs or in neither. -/
theorem read_takeImportance_beside {opened : List Kind} (htail : Ends tail)
    (h : Beside tail opened i j) (hj : j.ahead ≠ []) (hmark : i.view.kind = .delim)
    (reading : ValueReading) : ∃ reading' i' j',
      (takeImportance reading).read i = ⟨reading', i', []⟩ ∧
        (takeImportance reading).read j = ⟨reading', j', []⟩ ∧
        reading'.builder = reading.builder ∧ Beside tail opened i' j' ∧ i'.size < i.size := by
  obtain ⟨opened', hopen, h'⟩ := h.advance hj
  rw [hmark] at hopen
  obtain rfl : opened = opened' := Option.some.inj hopen
  have hlt := h.size_advance_lt hj
  have hread (input : Input) : (takeImportance reading).read input =
      (if input.advance.view.token.isWord "important" then do
        skip
        pure reading.markImportant
      else pure reading.spoil : Production ValueReading).read input.advance := rfl
  rw [hread i, hread j]
  by_cases hend : j.advance.ahead = []
  · -- what may follow the list is no word
    obtain ⟨_, hwhole, hshort⟩ := h'.at_end htail hend
    have hword (input : Input) (hk : endsRule input.view.kind = true ∨ input.view.kind = .eof) :
        ¬input.view.token.isWord "important" = true := by
      intro hword
      rw [View.kind, kind_of_isWord hword] at hk
      exact absurd hk (by decide)
    rw [if_neg (hword _ hwhole), if_neg (hword _ (.inr hshort))]
    exact ⟨_, _, _, rfl, rfl, rfl, h', hlt⟩
  · have htoken : j.advance.view.token = i.advance.view.token := by rw [h'.cut.view_eq hend]
    rw [htoken]
    by_cases hword : i.advance.view.token.isWord "important" = true
    · obtain ⟨opened', hopen', h''⟩ := h'.advance hend
      rw [View.kind, kind_of_isWord hword] at hopen'
      obtain rfl : opened = opened' := Option.some.inj hopen'
      rw [if_pos hword]
      exact ⟨_, _, _, rfl, rfl, rfl, h'', Nat.lt_trans (h'.size_advance_lt hend) hlt⟩
    · rw [if_neg hword]
      exact ⟨_, _, _, rfl, rfl, rfl, h', hlt⟩

/-- A value tracks the brackets opened in it, and stops outside of them. -/
theorem valueScan_balanced (htail : Ends tail) : valueScan.Balanced tail fun reading opened =>
    ∃ outer, opened = reading.builder.closers ++ outer ∧ outer.count .closeCurly = 0 where
  ends reading v hopened hends := by
    obtain ⟨outer, hnil, _⟩ := hopened
    have hclosers : reading.builder.closers = [] := (List.append_eq_nil_iff.1 hnil.symm).1
    have hdepth : reading.builder.depth = 0 := List.length_eq_zero_iff.2 hclosers
    rcases hends with hends | hends
    · have hkind : declarationEnd.contains v.kind = true := by
        revert hends
        cases v.kind <;> decide
      simp only [valueScan, hdepth, hkind, decide_true, Bool.and_self, Bool.or_true]
    · simp [valueScan, View.atEnd, show v.token.kind = .eof from hends]
  halts reading opened i j hopened h hj := by
    rw [h.cut.view_eq hj]
    refine ⟨rfl, fun hstop => ?_⟩
    obtain ⟨outer, hopened, hnone⟩ := hopened
    simp only [valueScan, h.atEnd_eq hj, Bool.false_or, Bool.and_eq_true, decide_eq_true_iff]
      at hstop
    rw [hopened, List.length_eq_zero_iff.1 hstop.1]
    exact hnone
  step reading opened i j hopened h hj hstop := by
    obtain ⟨outer, rfl, hnone⟩ := hopened
    by_cases hmark : (decide (reading.builder.depth = 0) && i.view.token.isMark '!') = true
    · have hdelim : i.view.kind = .delim := kind_of_isMark (Bool.and_eq_true_iff.1 hmark).2
      obtain ⟨reading', i', j', hi, hj', hbuilder, h', hlt⟩ :=
        read_takeImportance_beside htail h hj hdelim reading
      refine ⟨reading', i', j', _, ?_, ?_, ⟨outer, by rw [hbuilder], hnone⟩, h', hlt⟩
      · simpa only [valueScan, hmark, if_true] using hi
      · rw [h.cut.view_eq hj]
        simpa only [valueScan, hmark, if_true] using hj'
    · obtain ⟨opened', hopen, h'⟩ := h.advance hj
      have hk : reading.builder.closers ≠ [] ∨ i.view.kind ≠ .closeCurly := by
        by_cases hnil : reading.builder.closers = []
        · rw [hnil] at h
          exact .inr (h.kind_ne_close hj hnone)
        · exact .inl hnil
      obtain ⟨⟨outer', rfl, hnone'⟩, hrefused, _⟩ := openAfter_track hopen (h.sound hj) hk
      have hread (input : Input) (hview : input.view.kind = i.view.kind) :=
        read_takeValueToken_of_refused reading input (hview ▸ hrefused)
      refine ⟨{ reading with
          builder := (reading.builder.feed i.view.token i.view.spacing.isOpen).1
          valid := reading.valid && !reading.important },
        i.advance, j.advance, _, ?_, ?_, ⟨outer', rfl, hnone'.trans hnone⟩, h',
        h.size_advance_lt hj⟩
      · simp only [valueScan, hmark]
        exact hread i rfl
      · have hreadJ := hread j (h.cut.kind_eq hj)
        rw [h.cut.view_eq hj] at hreadJ ⊢
        simp only [valueScan, hmark]
        exact hreadJ

/-- The value of a declaration is read evenly. -/
theorem even_value (htail : Ends tail) (h : Level tail i j) :
    ((value declarationEnd).read i).Even tail ((value declarationEnd).read j) := by
  obtain ⟨opened, hbeside, hnone⟩ := h
  have hopen : ∃ outer, opened = ValueReading.start.builder.closers ++ outer ∧
      outer.count .closeCurly = 0 := ⟨opened, rfl, hnone⟩
  have heven := (valueScan_balanced htail).even htail (Nat.le_refl i.size) (Nat.le_refl j.size)
    hopen hbeside
  rw [← valueFrom_eq, ← valueFrom_eq] at heven
  rw [value, read_enclosed, read_enclosed]
  exact heven.bind fun _ _ _ h => .pure h _

/-! ### Declarations without their semicolons -/

/-- Reads the value after the colon for a property, up to what ends the declaration. -/
def valueBody (ctx : Context) (name : String) (property : Property) :
    Production (Option Property) := do
  let parsed ← value declarationEnd
  match parsed.value with
  | none =>
    complain (.valueMissing name)
    passDeclaration
    pure none
  | some value =>
    if !parsed.valid && !ctx.config.keepInvalidValues then
      complain (.invalidValue value.text)
      passDeclaration
      pure none
    else pure (some (property.assign value parsed.important))

/-- Reports that something else stands where a name should, and passes over the declaration. -/
def namelessBody : Production (Option Property) := do
  let view ← view
  if !view.atEnd then complainOf .identExpected
  passDeclaration
  pure none

/-- Reads what follows the name of a declaration, up to what ends that. -/
def namedBody (ctx : Context) (name : String) (property : Property) :
    Production (Option Property) := do
  let view ← view
  if view.kind = .colon then
    skip
    valueBody ctx name property
  else
    complain (.colonMissing name)
    passDeclaration
    pure none

/-- Reads a declaration up to what ends it. -/
def declarationBody (ctx : Context) (set : BlockKind) : Production (Option Property) := do
  let start ← view
  let name ← declarationName
  if name.isEmpty then namelessBody
  else
    let property ← property ctx set name start.position
    namedBody ctx name property

/-- Takes the semicolon that ends a declaration, if there is one. -/
def withSemicolon (property? : Option Property) : Production (Option Property) := do
  skipIf .semicolon
  pure property?

variable {ctx : Context} {set : BlockKind}

/-- A declaration that is passed over takes its semicolon last. -/
theorem abandonDeclaration_eq : abandonDeclaration = (do
    passDeclaration
    pure none) >>= withSemicolon := by
  rw [LawfulMonad.bind_assoc]
  rfl

/-- The value of a declaration takes its semicolon last. -/
theorem declarationValue_eq (name : String) (property : Property) :
    declarationValue ctx name property = valueBody ctx name property >>= withSemicolon := by
  unfold declarationValue valueBody
  rw [LawfulMonad.bind_assoc]
  refine congrArg (value declarationEnd >>= ·) (funext fun parsed => ?_)
  cases parsed.value with
  | none => simp only [abandonDeclaration_eq, LawfulMonad.bind_assoc]
  | some value =>
    dsimp only
    rw [apply_ite (· >>= withSemicolon)]
    refine ite_congr rfl (fun _ => ?_) fun _ => rfl
    simp only [abandonDeclaration_eq, LawfulMonad.bind_assoc]

/-- What has no name is passed over with its semicolon last. -/
theorem namelessBody_eq : (do
    let view ← view
    if !view.atEnd then complainOf .identExpected
    abandonDeclaration) = namelessBody >>= withSemicolon := by
  unfold namelessBody
  rw [LawfulMonad.bind_assoc]
  refine congrArg (view >>= ·) (funext fun view => ?_)
  split <;> simp only [abandonDeclaration_eq, LawfulMonad.bind_assoc]

/-- What follows the name of a declaration takes its semicolon last. -/
theorem namedBody_eq (name : String) (property : Property) : (do
    let view ← view
    if view.kind = .colon then
      skip
      declarationValue ctx name property
    else
      complain (.colonMissing name)
      abandonDeclaration) = namedBody ctx name property >>= withSemicolon := by
  unfold namedBody
  rw [LawfulMonad.bind_assoc]
  refine congrArg (view >>= ·) (funext fun view => ?_)
  split <;> simp only [abandonDeclaration_eq, declarationValue_eq, LawfulMonad.bind_assoc]

/-- However a declaration ends, its semicolon is taken last. -/
theorem declaration_eq : declaration ctx set =
    inFrame .declaration (declarationBody ctx set >>= withSemicolon) := by
  unfold declaration declarationBody
  simp only [namelessBody_eq, namedBody_eq, LawfulMonad.bind_assoc]
  congr 1
  refine congrArg (view >>= ·) (funext fun start => ?_)
  refine congrArg (declarationName >>= ·) (funext fun name => ?_)
  split
  · rfl
  · rw [LawfulMonad.bind_assoc]

/-! ### Declarations beside each other -/

/-- A property is looked up evenly, wherever its declaration starts. -/
theorem even_property (h : Level tail i j) (name : String) (a b : Position) :
    ((property ctx set name a).read i).Even tail ((property ctx set name b).read j) := by
  unfold property
  split
  · exact .pure h _
  · split
    · exact .pure h _
    · exact ⟨rfl, rfl, h⟩

/-- A declaration is given up evenly. -/
theorem even_giveUp (htail : Ends tail) (h : Level tail i j) :
    ((do passDeclaration; pure (none : Option Property)).read i).Even tail
      ((do passDeclaration; pure (none : Option Property)).read j) :=
  (even_passDeclaration htail h).bind fun _ _ _ h => .pure h _

/-- The value behind a colon is read evenly. -/
theorem even_valueBody (htail : Ends tail) (h : Level tail i j) (name : String)
    (property : Property) : ((valueBody ctx name property).read i).Even tail
      ((valueBody ctx name property).read j) := by
  refine (even_value htail h).bind fun parsed i j h => ?_
  cases parsed.value with
  | none => exact (Outcome.Even.complain h _).bind fun _ _ _ h => even_giveUp htail h
  | some value =>
    dsimp only
    split
    · exact (Outcome.Even.complain h _).bind fun _ _ _ h => even_giveUp htail h
    · exact .pure h _

/-- What has no name is passed over evenly. -/
theorem even_namelessBody (htail : Ends tail) (h : Level tail i j) (hj : j.ahead ≠ []) :
    (namelessBody.read i).Even tail (namelessBody.read j) := by
  obtain ⟨opened, hbeside, hnone⟩ := h
  have hview := hbeside.cut.view_eq hj
  have hread (input : Input) (hend : input.view.atEnd = false) : namelessBody.read input =
      (complainOf .identExpected >>= fun _ => passDeclaration >>= fun _ =>
        pure none : Production (Option Property)).read input := by
    unfold namelessBody
    rw [read_bind, read_view, hend]
    rfl
  have hend := hbeside.atEnd_eq hj
  rw [hread i hend, hread j (by rw [hview, View.atEnd_with, hend])]
  refine Outcome.Even.bind ⟨rfl, ?_, opened, hbeside, hnone⟩ fun _ _ _ h => even_giveUp htail h
  rw [read_complainOf, read_complainOf, hview]
  rfl

/-- What follows the name of a declaration is read evenly. -/
theorem even_namedBody (htail : Ends tail) (h : Level tail i j) (name : String)
    (property : Property) : ((namedBody ctx name property).read i).Even tail
      ((namedBody ctx name property).read j) := by
  have hread (input : Input) : (namedBody ctx name property).read input =
      (if input.view.kind = .colon then skip >>= fun _ => valueBody ctx name property
      else complain (.colonMissing name) >>= fun _ => passDeclaration >>= fun _ => pure none :
        Production (Option Property)).read input := rfl
  have hlevel := h
  obtain ⟨opened, hbeside, hnone⟩ := h
  rw [hread i, hread j]
  by_cases hcolon : j.view.kind = .colon
  · -- nothing that may follow the list is a colon
    have hj : j.ahead ≠ [] := by
      intro hend
      rw [(hbeside.at_end htail hend).2.2] at hcolon
      cases hcolon
    have hcolon' : i.view.kind = .colon := (hbeside.cut.kind_eq hj).symm.trans hcolon
    rw [if_pos hcolon, if_pos hcolon']
    obtain ⟨opened', hstep, h'⟩ := hbeside.advance hj
    rw [hcolon'] at hstep
    obtain rfl : opened = opened' := Option.some.inj hstep
    exact even_valueBody htail ⟨opened, h', hnone⟩ name property
  · have hcolon' : i.view.kind ≠ .colon := by
      by_cases hend : j.ahead = []
      · obtain ⟨_, hwhole, _⟩ := hbeside.at_end htail hend
        rintro hk
        rw [hk] at hwhole
        exact absurd hwhole (by decide)
      · rwa [← hbeside.cut.kind_eq hend]
    rw [if_neg hcolon, if_neg hcolon']
    exact (Outcome.Even.complain hlevel _).bind fun _ _ _ h => even_giveUp htail h

/-- From where a declaration starts in a list, it is read evenly up to what ends it. -/
theorem even_declarationBody (htail : Ends tail) (h : Level tail i j) (hj : j.ahead ≠ []) :
    ((declarationBody ctx set).read i).Even tail ((declarationBody ctx set).read j) := by
  have hread (input : Input) : (declarationBody ctx set).read input =
      (declarationName >>= fun name => if name.isEmpty then namelessBody else
        property ctx set name input.view.position >>= namedBody ctx name).read input := rfl
  have hname := even_declarationName htail h
  rw [hread i, hread j]
  refine hname.bind_at ?_
  cases hempty : (declarationName.read i).result.isEmpty with
  | true =>
    -- no token was taken, so both inputs stand where they stood
    have htoken : i.view.token = j.view.token := by
      obtain ⟨opened, hbeside, _⟩ := h
      rw [hbeside.cut.view_eq hj]
    have htext : j.view.token.text ≠ "" := by
      obtain ⟨opened, hbeside, _⟩ := h
      exact Input.Worded.text_ne hbeside.listed.worded hj
    rw [rest_declarationName (htoken ▸ htext) hempty,
      rest_declarationName htext (hname.result ▸ hempty)]
    exact even_namelessBody htail h hj
  | false =>
    exact (even_property hname.rest _ _ _).bind fun property _ _ h =>
      even_namedBody htail h _ property

/-! ### Lists of declarations -/

/-- Reads one declaration of a block, from where it starts, and gives the property if one is
declared. -/
def declarationRound (ctx : Context) (set : BlockKind) (start : UInt32) :
    Production (List Property) := do
  let parsed ← declaration ctx set
  passIfStuck start
  pure parsed.toList

/-- Reads on in a block, and gives the properties that are declared, in order. -/
def acceptedFrom (ctx : Context) (set : BlockKind) : Nat → Production (List Property)
  | 0 => pure []
  | rounds + 1 => do
    let view ← view
    match view.kind with
    | .closeCurly | .eof => pure []
    | .semicolon =>
      skip
      acceptedFrom ctx set rounds
    | _ =>
      let properties ← declarationRound ctx set view.offset
      let more ← acceptedFrom ctx set rounds
      pure (properties ++ more)

/-- Reads the properties that are declared up to a closing brace or the end of the source. -/
def accepted (ctx : Context) (set : BlockKind) : Production (List Property) := do
  acceptedFrom ctx set (← view).size

/-- A block is its declarations, put in one by one. -/
theorem declarationsFrom_eq (rounds : Nat) (block : Block) :
    declarationsFrom ctx set rounds block =
      List.foldl Block.set block <$> acceptedFrom ctx set rounds := by
  induction rounds generalizing block with
  | zero => rfl
  | succ rounds ih =>
    unfold declarationsFrom acceptedFrom
    rw [map_eq_pure_bind, LawfulMonad.bind_assoc]
    refine congrArg (view >>= ·) (funext fun view => ?_)
    generalize view.kind = kind
    split
    · rfl
    · rfl
    · rw [ih, map_eq_pure_bind, LawfulMonad.bind_assoc]
    · next hclose heof hsemicolon =>
      simp only [declarationRound, LawfulMonad.bind_assoc]
      refine congrArg (declaration ctx set >>= ·) (funext fun parsed => ?_)
      refine congrArg (passIfStuck view.offset >>= ·) (funext fun _ => ?_)
      rw [ih, map_eq_pure_bind]
      change _ = acceptedFrom ctx set rounds >>= fun more =>
        pure (List.foldl Block.set block (parsed.toList ++ more))
      cases parsed <;> rfl

/-- The properties that are declared are put into the block one by one. -/
theorem declarations_eq (block : Block) : declarations ctx set block =
    List.foldl Block.set block <$> accepted ctx set := by
  unfold declarations accepted
  rw [map_eq_pure_bind, LawfulMonad.bind_assoc]
  refine congrArg (view >>= ·) (funext fun view => ?_)
  rw [declarationsFrom_eq, map_eq_pure_bind]

/-- Where a block ends nothing is declared. -/
theorem read_acceptedFrom_stop (rounds : Nat)
    (h : i.view.kind = .closeCurly ∨ i.view.kind = .eof) :
    (acceptedFrom ctx set rounds).read i = ⟨[], i, []⟩ := by
  cases rounds with
  | zero => rfl
  | succ rounds =>
    rw [acceptedFrom, read_bind, read_view]
    rcases h with h | h <;> simp [h]

/-- In a block a semicolon is passed over. -/
theorem read_acceptedFrom_semicolon (rounds : Nat) (h : i.view.kind = .semicolon) :
    (acceptedFrom ctx set (rounds + 1)).read i = (acceptedFrom ctx set rounds).read i.advance := by
  rw [acceptedFrom, read_bind, read_view]
  simp [h, read_bind]

/-- Where a declaration starts in a block it is read, and then the rest. -/
theorem read_acceptedFrom_declaration (rounds : Nat) (hend : i.view.kind ≠ .eof)
    (h : endsRule i.view.kind = false) : (acceptedFrom ctx set (rounds + 1)).read i =
      ((declarationRound ctx set i.view.offset).read i).andThen ((acceptedFrom ctx set rounds).read
        ((declarationRound ctx set i.view.offset).read i).rest) := by
  rw [acceptedFrom, read_bind, read_view]
  have hclose : i.view.kind ≠ .closeCurly := fun hk => by simp [endsRule, hk] at h
  have hsemicolon : i.view.kind ≠ .semicolon := fun hk => by simp [endsRule, hk] at h
  split
  · next hk => exact absurd hk hclose
  · next hk => exact absurd hk hend
  · next hk => exact absurd hk hsemicolon
  · simp [read_bind, Outcome.andThen]

/-- A declaration takes a token, and nothing is left to the guard. -/
theorem read_declarationRound (ctx : Context) (set : BlockKind) (hend : i.view.kind ≠ .eof)
    (h : endsRule i.view.kind = false) (hnodup : i.offsets.Nodup) :
    (declarationRound ctx set i.view.offset).read i =
      ⟨((declaration ctx set).read i).result.toList, ((declaration ctx set).read i).rest,
        ((declaration ctx set).read i).reports⟩ ∧
      ((declaration ctx set).read i).rest.size < i.size := by
  have hadvances : (declaration ctx set).Advances (.ofInput i false) :=
    advances_declaration set (Parser.hasTokens_of_kind rfl hend) h
  refine ⟨?_, size_read_lt hadvances⟩
  rw [declarationRound, read_bind, read_bind, read_passIfStuck hadvances hnodup]
  simp

/-- More rounds than tokens make no difference. -/
theorem read_acceptedFrom {rounds : Nat} (h : i.size ≤ rounds) (hnodup : i.offsets.Nodup) :
    (acceptedFrom ctx set rounds).read i = (accepted ctx set).read i := by
  suffices hrounds : ∀ rounds', i.size ≤ rounds' →
      (acceptedFrom ctx set rounds).read i = (acceptedFrom ctx set rounds').read i from
    hrounds i.size (Nat.le_refl _)
  intro rounds' h'
  have hnone {input : Input} (hsize : input.size ≤ 0) : input.view.kind = .eof :=
    input.kind_view_eq_eof_iff.2 (input.size_eq_zero_iff.1 (Nat.le_zero.1 hsize))
  induction rounds generalizing rounds' i with
  | zero =>
    rw [read_acceptedFrom_stop _ (.inr (hnone h)), read_acceptedFrom_stop _ (.inr (hnone h))]
  | succ rounds ih =>
    by_cases hend : i.view.kind = .eof
    · rw [read_acceptedFrom_stop _ (.inr hend), read_acceptedFrom_stop _ (.inr hend)]
    obtain ⟨rounds', rfl⟩ : ∃ n, rounds' = n + 1 := by
      cases rounds' with
      | zero => exact absurd (hnone h') hend
      | succ n => exact ⟨n, rfl⟩
    by_cases hsemicolon : i.view.kind = .semicolon
    · rw [read_acceptedFrom_semicolon _ hsemicolon, read_acceptedFrom_semicolon _ hsemicolon]
      exact ih (size_advance_le h) ((Input.Reaches.advance i).nodup_offsets hnodup) _
        (size_advance_le h')
    by_cases hclose : i.view.kind = .closeCurly
    · rw [read_acceptedFrom_stop _ (.inl hclose), read_acceptedFrom_stop _ (.inl hclose)]
    have hrule : endsRule i.view.kind = false := by simp [endsRule, hsemicolon, hclose]
    obtain ⟨hround, hlt⟩ := read_declarationRound ctx set hend hrule hnodup
    rw [read_acceptedFrom_declaration _ hend hrule, read_acceptedFrom_declaration _ hend hrule,
      hround]
    exact congrArg _ (ih (by omega) ((read_reaches _ i).nodup_offsets hnodup) _ (by omega))

section

variable (ctx : Context) (set : BlockKind)

/-- Where the declarations of a block end nothing is accepted. -/
theorem read_accepted_stop (h : i.view.kind = .closeCurly ∨ i.view.kind = .eof) :
    (accepted ctx set).read i = ⟨[], i, []⟩ :=
  read_acceptedFrom_stop i.size h

/-- Behind a semicolon the same is accepted. -/
theorem read_accepted_semicolon (h : i.view.kind = .semicolon) (hnodup : i.offsets.Nodup) :
    (accepted ctx set).read i = (accepted ctx set).read i.advance := by
  have hadvance := (Input.Reaches.advance i).nodup_offsets hnodup
  rw [← read_acceptedFrom (Nat.le_succ i.size) hnodup, read_acceptedFrom_semicolon _ h,
    read_acceptedFrom (Nat.sub_le i.size 1) hadvance]

/-- A declaration is accepted before those that follow it. -/
theorem read_accepted_declaration (hend : i.view.kind ≠ .eof) (h : endsRule i.view.kind = false)
    (hnodup : i.offsets.Nodup) : (accepted ctx set).read i =
      (Outcome.mk ((declaration ctx set).read i).result.toList ((declaration ctx set).read i).rest
        ((declaration ctx set).read i).reports).andThen
        ((accepted ctx set).read ((declaration ctx set).read i).rest) := by
  obtain ⟨hround, hlt⟩ := read_declarationRound ctx set hend h hnodup
  rw [← read_acceptedFrom (Nat.le_succ i.size) hnodup, read_acceptedFrom_declaration _ hend h,
    hround]
  rw [read_acceptedFrom (Nat.le_of_lt hlt) ((read_reaches _ i).nodup_offsets hnodup)]

end

/-! ### What follows a list -/

/-- What is left of a tail once the semicolon that it may start with was taken. -/
def pastSemicolon : List Lexeme → List Lexeme
  | [] => []
  | lexeme :: rest => if lexeme.token.kind = .semicolon then rest else lexeme :: rest

/-- Taking the semicolon that a tail may start with leaves the rest of the tail. -/
theorem ahead_skipIf_semicolon (i : Input) :
    ((skipIf .semicolon).read i).rest.ahead = pastSemicolon i.ahead := by
  rw [read_skipIf]
  rcases hahead : i.ahead with _ | ⟨lexeme, rest⟩
  · have hkind : i.view.kind ≠ .semicolon := by
      rw [i.kind_view_eq_eof_iff.2 hahead]
      decide
    rw [if_neg hkind]
    exact hahead
  · have hkind : i.view.kind = lexeme.token.kind := by
      rw [View.kind, Input.view, Input.current, hahead]
    rw [pastSemicolon, hkind]
    split
    · rw [Input.ahead_advance, hahead, List.tail_cons]
    · exact hahead

/-- What stands after the last token stays while there is one. -/
theorem trailing_advance (h : i.ahead ≠ []) : i.advance.trailing = i.trailing :=
  if_neg (by simpa using h)

/-- What follows the last lexeme stays there when a token is taken. -/
theorem trailing_skipIf {kind : Kind} (h : i.ahead ≠ []) :
    ((skipIf kind).read i).rest.trailing = i.trailing := by
  rw [read_skipIf]
  split
  · exact trailing_advance h
  · rfl

/-- A declaration is read without its semicolon, and that is taken then. -/
theorem read_declaration (i : Input) : (declaration ctx set).read i =
    ⟨((declarationBody ctx set).read i).result,
      ((skipIf .semicolon).read ((declarationBody ctx set).read i).rest).rest,
      ((declarationBody ctx set).read i).reports⟩ := by
  have hquiet (i : Input) : ((skipIf .semicolon).read i).reports = [] := by
    rw [read_skipIf]
    split <;> rfl
  rw [declaration_eq, read_inFrame, read_bind, withSemicolon, read_bind, hquiet]
  simp

/-- Before the list ends, a semicolon is taken in both inputs or in neither. -/
theorem level_skipIf_semicolon (h : Level tail i j) (hj : j.ahead ≠ []) :
    Level tail ((skipIf .semicolon).read i).rest ((skipIf .semicolon).read j).rest := by
  obtain ⟨opened, hbeside, hnone⟩ := h
  rw [read_skipIf, read_skipIf, hbeside.cut.kind_eq hj]
  split
  · next hk =>
    obtain ⟨opened', hstep, h'⟩ := hbeside.advance hj
    rw [hk] at hstep
    obtain rfl : opened = opened' := Option.some.inj hstep
    exact ⟨opened, h', hnone⟩
  · exact ⟨opened, hbeside, hnone⟩

/-- Where a tail follows there are tokens. -/
theorem Level.ahead_ne (h : Level tail i j) (htail : tail ≠ []) : i.ahead ≠ [] := by
  obtain ⟨opened, hbeside, _⟩ := h
  rw [show i.ahead = j.ahead ++ tail from hbeside.cut]
  exact List.append_ne_nil_of_right_ne_nil _ htail

/-- Where the tokens of a list and its tail start at different bytes, those of the list do. -/
theorem Level.nodup (h : Level tail i j) (hnodup : i.offsets.Nodup) : j.offsets.Nodup := by
  obtain ⟨opened, hbeside, _⟩ := h
  rw [Input.offsets, show i.ahead = j.ahead ++ tail from hbeside.cut, List.map_append] at hnodup
  exact hnodup.sublist (List.sublist_append_left _ _)

/-- Reading on through a list and what follows it comes to reading the list as if nothing followed,
and then what follows, behind the semicolon if there is one. The list by itself is read to its
end. -/
structure Continues (ctx : Context) (set : BlockKind) (tail : List Lexeme) (i j : Input) :
    Prop where
  ends : ((accepted ctx set).read j).rest.ahead = []
  parts : ∃ (own : Outcome (List Property)) (k : Input),
    (accepted ctx set).read i = own.andThen ((accepted ctx set).read k) ∧
    own.result = ((accepted ctx set).read j).result ∧
    own.reports.map Diagnostic.cause = ((accepted ctx set).read j).reports.map Diagnostic.cause ∧
    k.ahead = pastSemicolon tail ∧ i.Reaches k ∧ (tail ≠ [] → k.trailing = i.trailing)

namespace Continues

/-- Behind the list. -/
theorem of_past (hi : i.ahead = pastSemicolon tail) (hj : j.ahead = []) :
    Continues ctx set tail i j := by
  have hread := read_accepted_stop ctx set (.inr (j.kind_view_eq_eof_iff.2 hj))
  constructor
  · rw [hread]
    exact hj
  · rw [hread]
    exact ⟨⟨[], i, []⟩, i, rfl, rfl, rfl, hi, .refl i, fun _ => rfl⟩

/-- Where the list ends, going on is going on behind the semicolon that may follow it. -/
theorem of_end (hi : i.ahead = tail) (hj : j.ahead = []) (hnodup : i.offsets.Nodup) :
    Continues ctx set tail i j := by
  have hskip := ahead_skipIf_semicolon i
  have hreach := read_reaches (skipIf .semicolon) i
  rw [hi] at hskip
  have hpast : Continues ctx set tail _ j := of_past hskip hj
  obtain ⟨hends, own, k, hread, hparts, hcauses, hk, hreach', htrailing⟩ := hpast
  have hsame : (accepted ctx set).read i =
      (accepted ctx set).read ((skipIf .semicolon).read i).rest := by
    rw [read_skipIf]
    split
    · next hk => exact read_accepted_semicolon ctx set hk hnodup
    · rfl
  exact ⟨hends, own, k, hsame.trans hread, hparts, hcauses, hk, hreach.trans hreach',
    fun h => (htrailing h).trans (trailing_skipIf (hi ▸ h))⟩

/-- After something that is read alike in both. -/
theorem after {one one' : Outcome (List Property)} {i' j' : Input}
    (hi : (accepted ctx set).read i = one.andThen ((accepted ctx set).read i'))
    (hj : (accepted ctx set).read j = one'.andThen ((accepted ctx set).read j'))
    (hresult : one.result = one'.result)
    (hcauses : one.reports.map Diagnostic.cause = one'.reports.map Diagnostic.cause)
    (hreach : i.Reaches i') (hkept : tail ≠ [] → i'.trailing = i.trailing)
    (h : Continues ctx set tail i' j') : Continues ctx set tail i j := by
  obtain ⟨hends, own, k, hread, hparts, hcauses', hk, hreach', htrailing⟩ := h
  refine ⟨by rw [hj]; exact hends, one.andThen own, k, ?_, ?_, ?_, hk, hreach.trans hreach',
    fun h => (htrailing h).trans (hkept h)⟩
  · rw [hi, hread]
    simp only [Outcome.andThen, List.append_assoc]
  · rw [hj]
    exact congrArg₂ (· ++ ·) hresult hparts
  · rw [hj]
    simp only [Outcome.andThen, List.map_append, hcauses, hcauses']

/-- A declaration that starts in a list: either its semicolon is in the list too, if it has one, or
it ends the list. -/
theorem of_declaration (htail : Ends tail) (h : Level tail i j) (hj : j.ahead ≠ [])
    (hend : i.view.kind ≠ .eof) (hrule : endsRule i.view.kind = false) (hnodup : i.offsets.Nodup)
    (ih : ∀ i' j', Level tail i' j' → i'.offsets.Nodup → j'.size < j.size →
      Continues ctx set tail i' j') : Continues ctx set tail i j := by
  have hkind : j.view.kind = i.view.kind := by
    obtain ⟨opened, hbeside, _⟩ := h
    exact hbeside.cut.kind_eq hj
  have hnodup' := h.nodup hnodup
  have heven : ((declarationBody ctx set).read i).Even tail ((declarationBody ctx set).read j) :=
    even_declarationBody htail h hj
  obtain ⟨hresult, hcauses, hrest⟩ := heven
  have hlt := (read_declarationRound ctx set (hkind ▸ hend) (hkind ▸ hrule) hnodup').2
  have hreach := read_reaches (declaration ctx set) i
  refine after (read_accepted_declaration ctx set hend hrule hnodup)
    (read_accepted_declaration ctx set (hkind ▸ hend) (hkind ▸ hrule) hnodup') ?_ ?_ hreach
    (fun htail => ?_) ?_
  · rw [read_declaration, read_declaration]
    exact congrArg Option.toList hresult
  · rw [read_declaration, read_declaration]
    exact hcauses
  · have hbody : ((declarationBody ctx set).read i).rest.ahead ≠ [] := hrest.ahead_ne htail
    rw [read_declaration]
    exact (trailing_skipIf hbody).trans ((read_reaches _ i).trailing_eq hbody)
  · rw [read_declaration] at hlt hreach ⊢
    rw [read_declaration]
    by_cases hbody : ((declarationBody ctx set).read j).rest.ahead = []
    · obtain ⟨opened, hbeside, _⟩ := hrest
      refine of_past ?_ ?_
      · rw [ahead_skipIf_semicolon,
          show _ = ((declarationBody ctx set).read j).rest.ahead ++ tail from hbeside.cut, hbody,
          List.nil_append]
      · rw [ahead_skipIf_semicolon, hbody]
        rfl
    · exact ih _ _ (level_skipIf_semicolon hrest hbody) (hreach.nodup_offsets hnodup) hlt

end Continues

/-- Whatever may follow a list, reading on through both comes to reading the one and then the other,
by induction on what is left of the list. -/
theorem accepted_continues (htail : Ends tail) (h : Level tail i j) (hnodup : i.offsets.Nodup) :
    Continues ctx set tail i j := by
  induction hsize : j.size using Nat.strong_induction_on generalizing i j with
  | _ size ih =>
  have hlevel := h
  obtain ⟨opened, hbeside, hnone⟩ := h
  by_cases hend : j.ahead = []
  · refine .of_end ?_ hend hnodup
    rw [show i.ahead = j.ahead ++ tail from hbeside.cut, hend, List.nil_append]
  have hkind := hbeside.cut.kind_eq hend
  by_cases hsemicolon : i.view.kind = .semicolon
  · have hskip := level_skipIf_semicolon hlevel hend
    rw [read_skipIf, read_skipIf, if_pos hsemicolon, if_pos (hkind.trans hsemicolon)] at hskip
    have hadvance := Input.Reaches.advance i
    have hlt : j.advance.size < size := by
      have hadvanced : j.advance.size = j.size - 1 := rfl
      have hpos := mt j.size_eq_zero_iff.1 hend
      omega
    -- the semicolon adds nothing to either
    have hread {input : Input} (hk : input.view.kind = .semicolon)
        (hdistinct : input.offsets.Nodup) : (accepted ctx set).read input =
          (Outcome.mk [] input []).andThen ((accepted ctx set).read input.advance) :=
      read_accepted_semicolon ctx set hk hdistinct
    exact .after (hread hsemicolon hnodup)
      (hread (hkind.trans hsemicolon) (hlevel.nodup hnodup)) rfl rfl hadvance
      (fun htail => hadvance.trailing_eq (hskip.ahead_ne htail))
      (ih _ hlt hskip (hadvance.nodup_offsets hnodup) rfl)
  · have hrule : endsRule i.view.kind = false := by
      simp [endsRule, hsemicolon, hbeside.kind_ne_close hend hnone]
    exact .of_declaration htail hlevel hend (hbeside.kind_ne_eof hend) hrule hnodup
      fun i' j' h' hnodup' hlt => ih _ (hsize ▸ hlt) h' hnodup' rfl

end Cssom.Grammar
