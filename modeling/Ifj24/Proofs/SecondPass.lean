import Ifj24.Proofs.Derivations

/-!
The second pass over a whole source, after the first one. The functions that it meets are
those that the first pass has registered, so it fails only for reasons that lie in the program,
and what it accepts is derivable: the tokens that it skips before a body are those of a result
type that the first pass has read.
-/

open List

namespace Ifj24.Grammar

open Ifj24.Tree Parameter Heading

variable {α β : Type} {last : Token} {ending : Ending} {known : Table}

variable {front : List Token} {t : Table}

section

variable {rest : List Token} {after before : Nat} {u : Table}

theorem ends_parameter (p : Parameter) (h : Inside known (depth + 1) s.table s.unused) :
    Ends (fun _ s' => Inside known (depth + 1) s'.table s'.unused) (p.resolve s) := by
  have hdeclare := h.ends_declare p.name.1.literal p.type.type false (.ofBool p.type.nullable)
    p.name.1.pos
  unfold resolve
  rw [bind_apply]
  unfold Scoped.declare
  generalize s.table.declare p.name.1.literal p.type.type false (.ofBool p.type.nullable)
    p.name.1.pos = x at hdeclare
  cases hdeclare with
  | error hd => exact .error hd
  | ok hu => exact .ok (hu.modify _ _)

theorem ends_parameters (ps : Listed Parameter)
    (h : Inside known (depth + 1) s.table s.unused) :
    Ends (fun _ s' => Inside known (depth + 1) s'.table s'.unused) (resolveParameters ps s) := by
  induction ps generalizing s with
  | nil => exact .ok h
  | last p => exact (ends_parameter p h).bind fun _ _ hs => .ok hs
  | cons p comma rest ih =>
    exact (ends_parameter p h).bind fun _ _ hs => (ih hs).bind fun _ _ hs' => .ok hs'

theorem proper_params (definition : FuncDef) (ps : Listed Parameter) (closing : Lexeme .rparen)
    (left : List Token) (hfuel : (ps.tokens tokens).length < fuel) :
    Proper known ending
      (Parser.params last definition fuel (ps.toList.map param))
      (ps.tokens tokens ++ closing.1 :: left) (depth + 1) (depth + 1)
      fun _ rest => rest = closing.1 :: left := by
  intro t u ht
  have hreads := @reads_parameters last definition ps fuel hfuel closing.1
    (left ++ ending.tokens) ⟨t, u⟩ closing.2
  have hends := ends_parameters ps (s := ⟨t, u⟩) ht
  rw [append_assoc, cons_append]
  unfold Agrees at hreads
  generalize resolveParameters ps ⟨t, u⟩ = r at hreads hends
  cases hends with
  | ok h =>
    rw [hreads]
    exact .ok ⟨h, _, rfl, rfl⟩
  | error hd =>
    obtain ⟨other, hreads⟩ := hreads
    rw [hreads]
    exact .error hd

/-- A function as the second pass reads it: any tokens may stand before its body. -/
structure Skimmed extends Heading where
  skipped : List Token
  noBrace : ∀ a ∈ skipped, a.kind ≠ .lbrace
  braces : Braces
  body : Body

def Skimmed.tokens (f : Skimmed) : List Token :=
  f.before (f.skipped ++ f.braces.tokens f.body.tokens)

theorem proper_skipToBody
    (h : ∀ skipped left, (∀ a ∈ skipped, a.kind ≠ .lbrace) → front = skipped ++ left →
      Proper known ending (f ()) left before after R) :
    Proper known ending (Parser.skipToBody >>= f) front before after R := by
  let skips (a : Token) : Bool := a.kind != .lbrace && a.kind != .eof
  have hskips : ∀ a ∈ front.takeWhile skips, a.kind ≠ .lbrace := by
    intro a ha hk
    have hskip := all_eq_true.mp (all_takeWhile) a ha
    simp [skips, hk] at hskip
  refine .of_step (fun t u => ?_)
    (h (front.takeWhile skips) (front.dropWhile skips) hskips takeWhile_append_dropWhile.symm)
  have hdrop : (front ++ ending.tokens).dropWhile skips = front.dropWhile skips ++ ending.tokens := by
    rw [dropWhile_append]
    split
    · rename_i hempty
      have hstop : skips ending.stop.1 = false := by simp [skips, ending.stop.2]
      rw [List.isEmpty_iff.mp hempty, Ending.tokens,
        dropWhile_cons_of_neg (by simp [hstop]), nil_append]
    · rfl
  rw [← hdrop]
  rfl

variable {definition : FuncDef}

theorem proper_functionRest (h : Heading) (pos : Pos) (name : Bytes)
    (hparams : definition.params = h.params.toList.map param) (left : List Token) :
    Proper known ending (functionRest last pos name definition)
      (h.opening.1 :: (h.params.tokens tokens ++ h.closing.1 :: left)) 0 0 fun _ rest =>
        ∃ f : Skimmed, h.before left = f.tokens ++ rest := by
  apply Proper.enter
  apply Proper.want (by decide)
  intro opening rest hrest
  obtain ⟨-, rfl⟩ := List.cons.inj hrest
  apply Proper.fuel
  intro fuel hfuel
  rw [length_append] at hfuel
  rw [hparams]
  apply Proper.bind
  apply (proper_params definition h.params h.closing left (by omega)).mono
  rintro _ _ rfl
  apply Proper.want (by decide)
  intro closing rest hrest
  obtain ⟨-, rfl⟩ := List.cons.inj hrest
  apply proper_skipToBody
  rintro skipped _ hskipped rfl
  apply Proper.fuel
  intro fuel hfuel
  apply Proper.bind
  apply ((properBlocks (fuel + 4)).block _ _ (by omega)).mono
  rintro _ rest ⟨braces, body, rfl⟩
  exact Proper.pure ⟨⟨h, skipped, hskipped, braces, body⟩, by simp [Skimmed.tokens, before]⟩

theorem proper_function {h : Heading}
    (hlook : known.lookupFunction? h.name.1.literal = some definition)
    (hparams : definition.params = h.params.toList.map param) (left : List Token) :
    Proper known ending (Parser.function last) (h.before left) 0 0 fun _ rest =>
      ∃ f : Skimmed, h.before left = f.tokens ++ rest := by
  intro t u ht
  have hf := (ht.lookup h.name.1.literal).trans hlook
  have hbef : h.before left ++ ending.tokens = h.before (left ++ ending.tokens) := by
    simp [before]
  have hrest : h.opening.1 :: (h.params.tokens tokens ++
      h.closing.1 :: (left ++ ending.tokens)) =
      h.opening.1 :: (h.params.tokens tokens ++ h.closing.1 :: left) ++
        ending.tokens := by
    simp
  rw [hbef, function_before _ _ hf, hrest]
  exact proper_functionRest h _ _ hparams left t u ht

theorem inert_parameters (ps : Listed Parameter) : ∀ a ∈ ps.tokens tokens, Inert a := by
  have parameter (p : Parameter) : ∀ a ∈ p.tokens, Inert a := by
    intro a ha
    rcases mem_cons.mp ha with rfl | ha
    · exact p.name.inert (by decide)
    · rcases mem_cons.mp ha with rfl | ha
      · exact p.colon.inert (by decide)
      · exact inert_typeName p.type a ha
  induction ps with
  | nil => simp [Listed.tokens]
  | last p => exact parameter p
  | cons p comma rest ih =>
    intro a ha
    simp only [Listed.tokens, mem_append, mem_cons] at ha
    rcases ha with ha | rfl | ha
    · exact parameter p a ha
    · exact comma.inert (by decide)
    · exact ih a ha

theorem exists_heading (hlast : last.kind = .eof)
    (hcoll : collectFrom last 0 0 (front ++ ending.tokens) t = .ok () known)
    (hpub : (front.headD ending.stop.1).kind = .kwPub) :
    ∃ (h : Heading) (left : List Token) (definition : FuncDef), front = h.before left ∧
      h.Heads definition ∧ known.lookupFunction? h.name.1.literal = some definition ∧
      (∃ after, (Tree.HeaderReader.header last).run (front ++ ending.tokens) =
        .ok (definition, after)) ∧
      t.funcs.order ++ [definition] <+: known.funcs.order := by
  obtain ⟨pub, rest, rfl⟩ := Ending.exists_cons (by decide) hpub
  have hhead := HeaderReader.reads_header hlast (pub.1 :: (rest ++ ending.tokens))
  simp only [cons_append, collectFrom, pub.2, Nat.lt_irrefl, if_false] at hcoll
  cases hrun : (Tree.HeaderReader.header last).run (pub.1 :: (rest ++ ending.tokens)) with
  | error d =>
    rw [hrun] at hcoll
    cases hcoll
  | ok pair =>
    rw [hrun] at hcoll
    obtain ⟨_, u, hadd, hcoll⟩ := bind_eq_ok hcoll
    obtain ⟨h, behind, htoks, hheads⟩ := Yields.result hhead hrun
    have hgrows := (ends_collectFrom hlast _ _ _ u).result hcoll
    have hself := ((ends_addFunction pair.1 t).result hadd).2
    -- No token of a heading ends the input, so the heading stands before the end.
    have hsplit : pub.1 :: rest ++ ending.tokens =
        (h.pub.1 :: h.fn.1 :: h.name.1 :: h.opening.1 :: h.params.tokens tokens) ++
          h.closing.1 :: behind := by
      rw [cons_append, htoks]
      simp [before]
    have hinert : ∀ a ∈ h.pub.1 :: h.fn.1 :: h.name.1 :: h.opening.1 ::
        h.params.tokens tokens, a.kind ≠ .eof := by
      intro a ha
      simp only [mem_cons] at ha
      rcases ha with rfl | rfl | rfl | rfl | ha
      · simp [h.pub.2]
      · simp [h.fn.2]
      · simp [h.name.2]
      · simp [h.opening.2]
      · exact (inert_parameters h.params a ha).1
    obtain ⟨left, hfront, -⟩ := Ending.split_before_end hsplit hinert (by simp [h.closing.2])
    refine ⟨h, left, pair.1, by simpa [before] using hfront, hheads, ?_,
      ⟨pair.2, hrun⟩, ?_⟩
    · rw [← hheads.name]
      exact hgrows.kept _ _ hself
    · rw [← (Table.addFunction_eq_ok hadd).2.2.1]
      exact hgrows.order

theorem eq_of_first_brace {b : Token}
    (h : xs ++ a :: ys = xs' ++ b :: ys') (hxs : ∀ x ∈ xs, x.kind ≠ .lbrace) (ha : a.kind = .lbrace)
    (hxs' : ∀ x ∈ xs', x.kind ≠ .lbrace) (hb : b.kind = .lbrace) : xs = xs' := by
  let before (x : Token) : Bool := x.kind != .lbrace
  have htake {zs ws : List Token} {c : Token} (hzs : ∀ x ∈ zs, x.kind ≠ .lbrace)
      (hc : c.kind = .lbrace) : (zs ++ c :: ws).takeWhile before = zs := by
    rw [takeWhile_append_of_pos (by simpa [before] using hzs),
      takeWhile_cons_of_neg (by simp [before, hc]), append_nil]
  rw [← htake hxs ha, h, htake hxs' hb]

theorem ResultType.noBrace (r : ResultType) : ∀ a ∈ r.tokens, a.kind ≠ .lbrace := by
  intro a ha hk
  rcases r.token_kind a ha with h | h | h <;> simp [hk, TokenKind.isDataType] at h

theorem exists_function (hlast : last.kind = .eof) (f : Skimmed)
    (h : collectFrom last 0 0 (f.tokens ++ rest) t = .ok () u) :
    ∃ g : Function, g.tokens = f.tokens := by
  have hsplit : f.tokens ++ rest =
      f.before (f.skipped ++ (f.braces.tokens f.body.tokens ++ rest)) := by
    simp [Skimmed.tokens, before]
  rw [hsplit] at h
  cases hhead : (Tree.HeaderReader.header last).run
      (f.before (f.skipped ++ (f.braces.tokens f.body.tokens ++ rest))) with
  | error d =>
    rw [collectFrom_of_header_error hhead] at h
    cases h
  | ok pair =>
    obtain ⟨r, hr, a, more, hafter, ha⟩ := HeaderReader.header_eq_ok hlast hhead
    rw [hafter] at hr
    have hskipped : f.skipped = r.tokens :=
      eq_of_first_brace hr f.noBrace f.braces.opening.2 r.noBrace ha
    exact ⟨⟨f.toHeading, r, f.braces, f.body⟩, by rw [Skimmed.tokens, hskipped]; rfl⟩

theorem collectFrom_behind (hlast : last.kind = .eof) {f : Skimmed}
    (hcoll : collectFrom last 0 0 (f.tokens ++ rest) t = .ok () known) :
    ∃ (g : Function) (u : Table), g.tokens = f.tokens ∧
      collectFrom last 0 0 rest u = .ok () known := by
  obtain ⟨g, hg⟩ := exists_function hlast f hcoll
  rw [← hg, collectFrom_function] at hcoll
  obtain ⟨_, u, -, hcoll⟩ := bind_eq_ok hcoll
  exact ⟨g, u, hg, hcoll⟩

theorem proper_functions (hlast : last.kind = .eof) (hfuel : front.length < fuel)
    (hcoll : collectFrom last 0 0 (front ++ ending.tokens) t = .ok () known) :
    Proper known ending (Parser.functions last fuel) front 0 0 fun _ left =>
      ∃ fs : List Function, front = fs.flatMap Function.tokens ++ left := by
  induction fuel generalizing front t with
  | zero => exact absurd hfuel (Nat.not_lt_zero _)
  | succ fuel ih =>
    apply Proper.peek
    split
    · rename_i hpub
      obtain ⟨h, left, definition, rfl, hheads, hlook, -⟩ := exists_heading hlast hcoll hpub
      apply Proper.bind
      apply (proper_function hlook hheads.params left).mono
      rintro _ rest ⟨f, hf⟩
      rw [hf, append_assoc] at hcoll
      obtain ⟨g, u, hg, hcoll⟩ := collectFrom_behind hlast hcoll
      have hlen : rest.length < fuel := by
        rw [hf, length_append] at hfuel
        have hpos : 0 < f.tokens.length := by simp [Skimmed.tokens, before]
        omega
      apply Proper.bind
      apply (ih hlen hcoll).mono
      rintro _ left' ⟨gs, rfl⟩
      exact .pure ⟨g :: gs, by simp [hf, hg]⟩
    · exact .pure ⟨[], rfl⟩

end

theorem proper_prolog :
    Proper known ending (Parser.prolog last) front depth depth fun _ left =>
      ∃ p : Prolog, front = p.tokens ++ left := by
  unfold Parser.prolog
  simp only [forM_eq_forM, forM_cons, forM_nil, bind_assoc, pure_bind]
  apply Proper.want (by decide)
  rintro const _ rfl
  apply Proper.want (by decide)
  rintro ifj _ rfl
  apply Proper.want (by decide)
  rintro eq _ rfl
  apply Proper.want (by decide)
  rintro at_ _ rfl
  apply Proper.want (by decide)
  rintro import_ _ rfl
  apply Proper.want (by decide)
  rintro opening left rfl
  apply Proper.peek
  split
  · exact fun _ _ _ => .error ⟨rfl⟩
  · rename_i hstring
    obtain ⟨path, _, rfl⟩ := Ending.exists_cons (by decide) (Classical.not_not.mp hstring)
    split
    · exact fun _ _ _ => .error ⟨rfl⟩
    · rename_i hpath
      apply Proper.advance
      apply Proper.want (by decide)
      rintro closing _ rfl
      apply Proper.want (by decide)
      rintro semi left rfl
      exact Proper.pure ⟨⟨const, ifj, eq, at_, import_, opening, path, Classical.not_not.mp hpath,
        closing, semi⟩, rfl⟩

theorem proper_program (hlast : last.kind = .eof)
    (hcoll : collectFrom last 0 0 (front ++ ending.tokens) t = .ok () known) :
    Proper known ending (Parser.program last) front 0 0 fun _ left =>
      (left.headD ending.stop.1).kind = .eof ∧ ∃ (p : Prolog) (fs : List Function),
        front = p.tokens ++ fs.flatMap Function.tokens ++ left := by
  apply Proper.peek
  apply Proper.bind
  apply proper_prolog.mono
  rintro _ left ⟨prolog, rfl⟩
  rw [append_assoc, collectFrom_inert (inert_prolog prolog)] at hcoll
  apply Proper.fuel
  intro fuel hfuel
  apply Proper.bind
  apply (proper_functions hlast hfuel hcoll).mono
  rintro _ left ⟨fs, rfl⟩
  apply Proper.peek
  split
  · exact fun _ _ _ => .error ⟨rfl⟩
  · rename_i heof
    exact Proper.pure ⟨Classical.not_not.mp heof, prolog, fs, by simp⟩

section

variable {b : TokenBuffer}

theorem exists_ending (hlast : b.last.kind = .eof) :
    ∃ (front : List Token) (ending : Ending),
      (∀ a ∈ front, a.kind ≠ .eof) ∧ b.items = front ++ ending.tokens := by
  have hsplit (ts : List Token) (hts : ∃ a ∈ ts, a.kind = .eof) :
      ∃ (front : List Token) (ending : Ending),
        (∀ a ∈ front, a.kind ≠ .eof) ∧ ts = front ++ ending.tokens := by
    induction ts with
    | nil =>
      obtain ⟨a, ha, -⟩ := hts
      cases ha
    | cons a rest ih =>
      by_cases ha : a.kind = .eof
      · exact ⟨[], ⟨⟨a, ha⟩, rest⟩, by simp, rfl⟩
      · obtain ⟨c, hc, hceof⟩ := hts
        have hrest : c ∈ rest := by
          rcases mem_cons.mp hc with rfl | hrest
          · exact absurd hceof ha
          · exact hrest
        obtain ⟨front, ending, hfront, rfl⟩ := ih ⟨c, hrest, hceof⟩
        refine ⟨a :: front, ending, ?_, rfl⟩
        intro x hx
        rcases mem_cons.mp hx with rfl | hx
        · exact ha
        · exact hfront x hx
  exact hsplit b.items ⟨b.last, by simp [TokenBuffer.items], hlast⟩

theorem inside_of_collect (hlast : last.kind = .eof) (hinner : t.inner = [])
    (h : collectFrom last 0 0 ts t = .ok () known) : Inside known 0 known none := by
  have hgrows := (ends_collectFrom hlast _ _ _ _).result h
  have hscope : known.inner.length = 0 := by
    rw [hgrows.rest, hinner]
    rfl
  exact ⟨rfl, rfl, hscope, fun d hd => by cases hd⟩

/-- Parsing fails only for reasons that lie in the program, and a broken rule of use that it
leaves to later lies there too. -/
theorem ends_parse (hlast : b.last.kind = .eof) (hinner : t.inner = []) :
    Ends (fun parsed _ => ∀ d, parsed.unused = some d → d.Ordinary) (parse b t) := by
  obtain ⟨front, ending, -, hitems⟩ := exists_ending hlast
  unfold parse
  rw [bind_apply, collectFunctions]
  have hends := ends_collectFrom hlast 0 0 b.items t
  cases hcoll : collectFrom b.last 0 0 b.items t with
  | error d u =>
    rw [hcoll] at hends
    cases hends with
    | error hd => exact .error hd
  | ok _ u =>
    have hins := inside_of_collect hlast hinner hcoll
    rw [hitems] at hcoll
    have hproper := proper_program hlast hcoll u none hins
    dsimp only
    rw [bind_apply, get_apply]
    dsimp only [EStateM.run]
    rw [hitems]
    generalize Parser.program b.last ⟨front ++ ending.tokens, u, none⟩ = r at hproper
    cases hproper with
    | ok h => exact .ok h.1.noted
    | error hd => exact .error hd

theorem exists_program_of_parse {hash : NameHash} {u : Table}
    (hlast : b.last.kind = .eof) (hfront : ∀ a ∈ front, a.kind ≠ .eof)
    (hitems : b.items = front ++ ending.tokens) (h : parse b (.fresh hash strict) = .ok parsed u) :
    ∃ p : Program, p.tokens = front ++ [ending.stop.1] := by
  obtain ⟨_, v, hcoll, h⟩ := bind_eq_ok h
  rw [collectFunctions, hitems] at hcoll
  rw [bind_apply, get_apply] at h
  dsimp only [EStateM.run] at h
  rw [hitems] at h
  have hproper := proper_program hlast hcoll v none (inside_of_collect hlast rfl hcoll)
  generalize Parser.program b.last ⟨front ++ ending.tokens, v, none⟩ = r at h hproper
  cases hproper with
  | error hd => cases h
  | ok hleft =>
    obtain ⟨-, left, -, heof, prolog, fs, rfl⟩ := hleft
    cases left with
    | nil => exact ⟨⟨prolog, fs, ending.stop⟩, by simp [Program.tokens]⟩
    | cons a left => exact absurd heof (hfront a (by simp))

end

end Ifj24.Grammar
