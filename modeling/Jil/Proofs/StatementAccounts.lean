/-
Jil.Proofs.StatementAccounts — what the statements of a body read and write.

`Accounts` is the account of one statement: its code jumps to labels of the
function, it reads numbers that stand for the whole function, numbers that it has
drawn itself, or the number of a local variable (`getLocal`), and it writes what it
draws, its result, what it stores, and the results of merges on the edge that
leaves it. A local variable has the number that was drawn where its scope opened,
up to the next marker of its name (`opening_of_bodyCode`).
-/
import Jil.Proofs.TextOrder
import Jil.Proofs.WrittenNumbers

namespace Jil

open Pseudo (Instr Reg Within Writes bind_eq_ok ite_eq_ok)

namespace Selection

variable {scope : Scope} {st mid after : State} {code : List Instr} {origin : Origin}
  {index : Nat} {s : Statement}

/-! ## Statements -/

/-- A statement reads the local variable that has this number. -/
def ReadsLocal (st : State) (s : Statement) (id : Nat) : Prop :=
  ∃ name result p, s = .getLocal name result ∧ st.locals.get? name = some p ∧ p.id = id

/-- What the code of the statement at `index` reads and writes, and what it leaves of the local
variables. -/
structure Accounts (scope : Scope) (index : Nat) (s : Statement) (st : State)
    (code : List Instr) (after : State) : Prop where
  within : Within scope.Target
    (fun id => scope.Known st.drawn after.drawn id ∨ ReadsLocal st s id) code
  /-- What is drawn is written, unless it is drawn for a local variable. -/
  temporaries : s.scopeMarker? = none → ∀ id, st.drawn < id → id ≤ after.drawn → Writes code id
  result : ∀ r, s.definedRegister? = some r →
    Writes code r.index ∨ ∃ first second, s = .choose first second r
  /-- Copies are made where control leaves along an edge. -/
  merges : ∀ l, s.mentionedLabel? = some l →
    ∀ c ∈ scope.copiesAt index, Writes code c.dest.index
  stores : ∀ name src, s = .putLocal name src →
    ∃ p, st.locals.get? name = some p ∧ Writes code p.id
  kept : ∀ name, s.scopeMarker? ≠ some name → after.locals.get? name = st.locals.get? name
  /-- A local variable has the number that is drawn where its scope opens. -/
  opened : ∀ name p, s.scopeMarker? = some name → after.locals.get? name = some p →
    ∃ type, s = .startScope name type ∧ p.id = st.drawn + 1
  silent : ∀ name, s.scopeMarker? = some name → code = []

/-- A statement that names no local variable and no label. -/
theorem Supplies.accounts (h : Supplies scope st.drawn st code after)
    (hresult : ∀ r, s.definedRegister? = some r → Writes code r.index)
    (hmarker : s.scopeMarker? = none) (hlabel : s.mentionedLabel? = none)
    (hlocal : s.usedLocal? = none) : Accounts scope index s st code after where
  within := h.within.mono fun _ hid => .inl hid
  temporaries _ := h.writes
  result r hr := .inl (hresult r hr)
  merges l hl := by
    rw [hlabel] at hl
    cases hl
  stores name src hs := by
    subst hs
    cases hlocal
  kept _ _ := by rw [h.locals]
  opened name p hname := by
    rw [hmarker] at hname
    cases hname
  silent name hname := by
    rw [hmarker] at hname
    cases hname

/-- A statement that places a label or jumps to one. -/
theorem Supplies.accounts_edge (h : Supplies scope st.drawn st code after)
    (hmerges : ∀ c ∈ scope.copiesAt index, Writes code c.dest.index)
    (hlabel : ∃ l, s.mentionedLabel? = some l) : Accounts scope index s st code after where
  within := h.within.mono fun _ hid => .inl hid
  temporaries _ := h.writes
  result r hr := by
    obtain ⟨l, hl⟩ := hlabel
    cases s <;> first | cases hr; done | cases hl
  merges _ _ := hmerges
  stores name src hs := by
    obtain ⟨l, hl⟩ := hlabel
    subst hs
    cases hl
  kept _ _ := by rw [h.locals]
  opened name p hname := by
    obtain ⟨l, hl⟩ := hlabel
    cases s <;> first | cases hname; done | cases hl
  silent name hname := by
    obtain ⟨l, hl⟩ := hlabel
    cases s <;> first | cases hname; done | cases hl

/-- A statement that leaves the state as it is, opens no scope and names no label. -/
theorem accounts_unmoved
    (hwithin : Within scope.Target (fun id => scope.Known st.drawn st.drawn id
      ∨ ReadsLocal st s id) code)
    (hresult : ∀ r, s.definedRegister? = some r →
      Writes code r.index ∨ ∃ first second, s = .choose first second r)
    (hstores : ∀ name src, s = .putLocal name src →
      ∃ p, st.locals.get? name = some p ∧ Writes code p.id) (hmarker : s.scopeMarker? = none)
    (hlabel : s.mentionedLabel? = none) :
    Accounts scope index s st code st where
  within := hwithin
  temporaries _ id hlt hle := absurd hlt (Nat.not_lt_of_le hle)
  result := hresult
  merges l hl := by
    rw [hlabel] at hl
    cases hl
  stores := hstores
  kept _ _ := rfl
  opened name p hname := by
    rw [hmarker] at hname
    cases hname
  silent name hname := by
    rw [hmarker] at hname
    cases hname

/-- A statement that opens or closes a scope. -/
theorem accounts_marker {name : String} (hname : s.scopeMarker? = some name)
    (hkept : ∀ other, other ≠ name → after.locals.get? other = st.locals.get? other)
    (hopened : ∀ p, after.locals.get? name = some p →
      ∃ type, s = .startScope name type ∧ p.id = st.drawn + 1) :
    Accounts scope index s st [] after where
  within := .nil
  temporaries hmarker := by
    rw [hname] at hmarker
    cases hmarker
  result r hr := by cases s <;> first | cases hr; done | cases hname
  merges l hl := by cases s <;> first | cases hl; done | cases hname
  stores other src hs := by
    subst hs
    cases hname
  kept other hother := hkept other fun heq => hother (heq ▸ hname)
  opened other p hother hp := by
    obtain rfl : name = other := Option.some.inj (hname.symm.trans hother)
    exact hopened p hp
  silent _ _ := rfl

theorem standing_of_register {r : Register} {t : Ty} (h : scope.types.get? r = some t) :
    scope.Standing r.index :=
  .inl ⟨r, t, h, rfl⟩

/-- One instruction that moves what stands into a register. -/
theorem accounts_move {src dest : Reg} {size : Machine.Size} {r : Register}
    (hsrc : scope.Standing src.id) (hdest : dest.id = r.index)
    (hs : s.definedRegister? = some r) (hmarker : s.scopeMarker? = none)
    (hlabel : s.mentionedLabel? = none) (hlocal : s.usedLocal? = none) :
    Accounts scope index s st [move size src dest] st := by
  refine Supplies.accounts (.still (.reading (p := src) rfl rfl (.inl hsrc)))
    (fun r' hr' => ?_)
    hmarker hlabel hlocal
  obtain rfl : r = r' := Option.some.inj (hs.symm.trans hr')
  exact hdest ▸ .of_mem List.mem_cons_self List.mem_cons_self

/-- The code of a statement. -/
theorem accounts_statementCode (hfruitful : s.Fruitful scope.unit scope.types origin)
    (hplaced : ∀ name ∈ statementLabels scope index s, scope.Target name)
    (htarget : ∀ l, s.jumpTarget? = some l → scope.Target (scope.label l))
    (h : Yields scope (statementCode index s origin) st code after) :
    Accounts scope index s st code after := by
  -- the code of a statement whose result is `r`
  have hone : ∀ {p : Reg} {r : Register}, Writes code p.id → p.id = r.index →
      s.definedRegister? = some r → ∀ r', s.definedRegister? = some r' →
      Writes code r'.index := by
    intro p r hwrites hid hr r' hr'
    obtain rfl : r = r' := Option.some.inj (hr.symm.trans hr')
    exact hid ▸ hwrites
  cases gives_of_yields h with
  | copy ht hu => exact accounts_move (standing_of_register ht) rfl rfl rfl rfl rfl
  | @choose first second result =>
    refine accounts_unmoved .nil ?_ (by rintro _ _ ⟨⟩) rfl rfl
    rintro r ⟨⟩
    exact .inr ⟨first, second, rfl⟩
  | @literal _ t _ result _ _ ht =>
    exact Supplies.accounts (.still (.still rfl rfl))
      (hone (.of_mem (p := ⟨result.index, sizeOf t⟩) List.mem_cons_self List.mem_cons_self)
        rfl rfl)
      rfl rfl rfl
  | string ht htext hcode =>
    obtain ⟨⟨label, rfl⟩, strings, rfl⟩ := yields_constant htext
    have hsupplies : Supplies scope st.drawn { st with strings := strings } code after :=
      supplies_service hcode (by simp [Native.Argument.Within])
    exact Supplies.accounts ⟨hsupplies.locals, hsupplies.drawn, hsupplies.within,
      hsupplies.writes⟩
      (hone (writes_service hcode rfl) rfl rfl) rfl rfl rfl
  | @getLocal name result p t hp ht =>
    refine accounts_unmoved (.reading (p := p) rfl rfl (.inr ⟨name, result, p, rfl, hp, rfl⟩))
      ?_
      (by rintro _ _ ⟨⟩) rfl rfl
    rintro r ⟨⟩
    exact .inl (.of_mem (p := ⟨result.index, sizeOf t⟩) List.mem_cons_self List.mem_cons_self)
  | @putLocal name src p t hp ht =>
    refine accounts_unmoved
      (.reading (p := ⟨src.index, sizeOf t⟩) rfl rfl (.inl (known_of_register ht)))
      (by rintro _ ⟨⟩) ?_ rfl rfl
    rintro _ _ ⟨⟩
    exact ⟨p, hp, .of_mem List.mem_cons_self List.mem_cons_self⟩
  | @getParam name result p t hp ht =>
    exact accounts_move (.inr (.inr ⟨name, p, hp, rfl⟩)) rfl rfl rfl rfl rfl
  | getStatic hcode | getStaticAddress hcode =>
    obtain ⟨hsupplies, hresult⟩ := supplies_getStatic hcode
    exact hsupplies.accounts (by rintro r ⟨⟩; exact hresult) rfl rfl rfl
  | putStatic hcode => exact (supplies_putStatic hcode).accounts (by rintro _ ⟨⟩) rfl rfl rfl
  | getField hcode | getFieldAddress hcode =>
    obtain ⟨hsupplies, hresult⟩ := supplies_getField hcode
    exact hsupplies.accounts (by rintro r ⟨⟩; exact hresult) rfl rfl rfl
  | putField hcode => exact (supplies_putField hcode).accounts (by rintro _ ⟨⟩) rfl rfl rfl
  | @compare _ left right result a b t ha hb ht =>
    refine Supplies.accounts (.still (.cons (.single rfl ?_) (.still rfl rfl))) ?_ rfl rfl rfl
    · exact List.forall_mem_cons.2 ⟨known_of_register hb,
        List.forall_mem_singleton.2 (known_of_register ha)⟩
    · exact hone (Writes.last (i := .setcc _ (.pseudo ⟨result.index, sizeOf t⟩))
        List.mem_cons_self
        [_]) rfl rfl
  | binary ha hb ht _ hcode =>
    obtain ⟨hsupplies, hresult⟩ := supplies_binaryCode (standing_of_register ha)
      (standing_of_register hb) (standing_of_register ht) hcode
    exact hsupplies.accounts (hone hresult rfl rfl) rfl rfl rfl
  | unary ha ht =>
    refine Supplies.accounts
      (.still (within_unaryCode (known_of_register ha) (known_of_register ht)))
      (hone (writes_unaryCode _ _ _) rfl rfl) rfl rfl rfl
  | convert ha ht =>
    exact Supplies.accounts (.still (within_convertCode (known_of_register ha)))
      (hone (writes_convertCode _ _ _) rfl rfl) rfl rfl rfl
  | @branch condition expected target t copies _ ht hedge =>
    obtain ⟨hsupplies, hmerges⟩ := supplies_edgeCode hedge
    have hskip : copies ≠ [] → scope.Target (scope.edgeLabel index) := fun hcopies =>
      hplaced _ (by simp [statementLabels, ← (placed_edgeCode hedge).2, hcopies])
    exact Supplies.accounts_edge
      (supplies_branchCode (standing_of_register ht) (htarget target rfl) hskip hsupplies)
      (fun c hc => writes_branchCode (hmerges c hc)) ⟨target, rfl⟩
  | @jump target _ _ hedge =>
    obtain ⟨hsupplies, hmerges⟩ := supplies_edgeCode hedge
    exact (hsupplies.append (.still (.jump rfl rfl (htarget target rfl)))).accounts_edge
      (fun c hc => (hmerges c hc).left _) ⟨target, rfl⟩
  | @label name _ _ hedge =>
    obtain ⟨hsupplies, hmerges⟩ := supplies_edgeCode hedge
    exact (hsupplies.append (.still (.still rfl rfl))).accounts_edge
      (fun c hc => (hmerges c hc).left _) ⟨name, rfl⟩
  | callActual hcode =>
    obtain ⟨hsupplies, hresult⟩ := supplies_callActual hfruitful hcode
    exact hsupplies.accounts hresult rfl rfl rfl
  | callVirtual hcode =>
    obtain ⟨hsupplies, hresult⟩ := supplies_callVirtual hfruitful hcode
    exact hsupplies.accounts hresult rfl rfl rfl
  | @returnValue src t ht =>
    refine Supplies.accounts (.still (.cons ?_ (.jump rfl rfl (.inr rfl))))
      (by rintro _ ⟨⟩) rfl rfl
      rfl
    exact .reading (p := ⟨src.index, sizeOf t⟩) rfl rfl (known_of_register ht)
  | returnVoid =>
    exact Supplies.accounts (.still (.jump rfl rfl (.inr rfl))) (by rintro _ ⟨⟩) rfl rfl rfl
  | @startScope name type =>
    refine accounts_marker rfl (fun other hother => Table.get?_insert_of_ne _ _ hother)
      fun p hp => ?_
    rw [Table.get?_insert_self, Option.some.injEq] at hp
    exact ⟨type, rfl, hp ▸ rfl⟩
  | endScope =>
    refine accounts_marker rfl (fun other hother => ?_) fun p hp => ?_
    · simp only [Table.get?_erase, if_neg hother]
    · simp [Table.get?_erase] at hp

/-! ## Bodies -/

/-- The labels of a statement are among those of its body. -/
theorem mem_bodyLabels_of_mem {pre post : List Statement} {name : String}
    (h : name ∈ statementLabels scope (index + pre.length) s) :
    name ∈ bodyLabels scope index (pre ++ s :: post) := by
  induction pre generalizing index with
  | nil => exact List.mem_append_left _ h
  | cons s' pre ih =>
    refine List.mem_append_right _ (ih ?_)
    rwa [List.length_cons, Nat.add_comm pre.length, ← Nat.add_assoc] at h

/-- An instruction of a body belongs to one of the statements. -/
theorem exists_part_of_mem {l : List Located}
    (h : Yields scope (bodyCode index l) st code after) {i : Instr} (hi : i ∈ code) :
    ∃ pre s post front before part mid, l = pre ++ s :: post
      ∧ Yields scope (bodyCode index pre) st front before
      ∧ Yields scope (statementCode (index + pre.length) s.statement s.origin) before part mid
      ∧ i ∈ part := by
  induction l generalizing index st code with
  | nil =>
    obtain ⟨rfl, rfl⟩ := yields_pure.1 h
    cases hi
  | cons s l ih =>
    obtain ⟨first, st', rest, hfirst, hrest, rfl⟩ := yields_bodyCode_cons.1 h
    rcases List.mem_append.1 hi with hi | hi
    · exact ⟨[], s, l, [], st, first, st', rfl, yields_pure.2 ⟨rfl, rfl⟩, hfirst, hi⟩
    · obtain ⟨pre, s', post, front, before, part, mid, rfl, hfront, hpart, hi⟩ := ih hrest hi
      refine ⟨s :: pre, s', post, first ++ front, before, part, mid, rfl, ?_, ?_, hi⟩
      · exact yields_bodyCode_cons.2 ⟨first, st', front, hfirst, hfront, rfl⟩
      · rwa [List.length_cons, Nat.add_comm pre.length, ← Nat.add_assoc]

/-- The code of every statement of a body is accounted for. -/
def AccountsAll (scope : Scope) (index : Nat) (l : List Located) : Prop :=
  ∀ pre s post, l = pre ++ s :: post → ∀ before part mid,
    Yields scope (statementCode (index + pre.length) s.statement s.origin) before part mid →
      Accounts scope (index + pre.length) s.statement before part mid

theorem AccountsAll.front {l pre post : List Located} {s : Located}
    (h : AccountsAll scope index l) (hl : l = pre ++ s :: post) :
    AccountsAll scope index pre :=
  fun pre' s' post' heq => h pre' s' (post' ++ s :: post) (by simp [hl, heq])

theorem accountsAll_cons {s : Located} {l : List Located}
    (h : AccountsAll scope index (s :: l)) :
    (∀ before part mid, Yields scope (statementCode index s.statement s.origin)
      before part mid →
      Accounts scope index s.statement before part mid) ∧ AccountsAll scope (index + 1) l := by
  refine ⟨h [] s l rfl, fun pre s' post heq before part mid hpart => ?_⟩
  have haccounts := h (s :: pre) s' post (by rw [heq]; rfl) before part mid
  rw [List.length_cons, Nat.add_comm pre.length, ← Nat.add_assoc] at haccounts
  exact haccounts hpart

/-- Where no marker of a name stands, its local variable stays what it is. -/
theorem get?_locals_of_bodyCode {l : List Located} (hl : AccountsAll scope index l)
    (h : Yields scope (bodyCode index l) st code after) {name : String}
    (hname : ∀ s ∈ l, s.statement.scopeMarker? ≠ some name) :
    after.locals.get? name = st.locals.get? name := by
  induction l generalizing index st code with
  | nil => rw [(yields_pure.1 h).2]
  | cons s l ih =>
    obtain ⟨hs, hl⟩ := accountsAll_cons hl
    obtain ⟨hmarker, hname⟩ := List.forall_mem_cons.1 hname
    obtain ⟨first, mid, rest, hfirst, hrest, rfl⟩ := yields_bodyCode_cons.1 h
    rw [ih hl hrest hname, (hs _ _ _ hfirst).kept name hmarker]

/-- A local variable is as it was, or has the number that was drawn where its scope opened. -/
theorem opening_of_bodyCode {l : List Located} (hl : AccountsAll scope index l)
    (h : Yields scope (bodyCode index l) st code after) {name : String} {p : Reg}
    (hp : after.locals.get? name = some p) :
    (st.locals.get? name = some p ∧ ∀ s ∈ l, s.statement.scopeMarker? ≠ some name)
      ∨ ∃ front opening rest type part before, l = front ++ opening :: rest
        ∧ opening.statement = .startScope name type
        ∧ (∀ s ∈ rest, s.statement.scopeMarker? ≠ some name)
        ∧ Yields scope (bodyCode index front) st part before ∧ p.id = before.drawn + 1 := by
  induction l generalizing index st code with
  | nil =>
    rw [(yields_pure.1 h).2] at hp
    exact .inl ⟨hp, List.forall_mem_nil _⟩
  | cons s l ih =>
    obtain ⟨hs, hl⟩ := accountsAll_cons hl
    obtain ⟨first, mid, rest, hfirst, hrest, rfl⟩ := yields_bodyCode_cons.1 h
    rcases ih hl hrest with ⟨hp, hname⟩ | hlater
    · by_cases hmarker : s.statement.scopeMarker? = some name
      · obtain ⟨type, hopening, hid⟩ := (hs _ _ _ hfirst).opened name p hmarker hp
        exact .inr ⟨[], s, l, type, [], st, rfl, hopening, hname,
          yields_pure.2 ⟨rfl, rfl⟩, hid⟩
      · rw [(hs _ _ _ hfirst).kept name hmarker] at hp
        exact .inl ⟨hp, List.forall_mem_cons.2 ⟨hmarker, hname⟩⟩
    · obtain ⟨front, opening, back, type, part, before, rfl, hopening, hname, hpart, hid⟩ :=
        hlater
      refine .inr ⟨s :: front, opening, back, type, first ++ part, before, rfl,
        hopening, hname, ?_, hid⟩
      exact yields_bodyCode_cons.2 ⟨first, mid, part, hfirst, hpart, rfl⟩

/-- Behind the opening of its scope a local variable keeps the number that was drawn there. -/
theorem get?_locals_of_opening {front rest : List Located} {opening : Located} {name : String}
    {type : Ty} {part : List Instr} {before : State}
    (hl : AccountsAll scope index (front ++ opening :: rest))
    (h : Yields scope (bodyCode index (front ++ opening :: rest)) st code after)
    (hopening : opening.statement = .startScope name type)
    (hname : ∀ s ∈ rest, s.statement.scopeMarker? ≠ some name)
    (hfront : Yields scope (bodyCode index front) st part before) :
    after.locals.get? name = some ⟨before.drawn + 1, sizeOf type⟩ := by
  obtain ⟨_, _, opened, mid, back, hfront', hopened, hback, -⟩ := parts_of_bodyCode h
  obtain ⟨-, rfl⟩ := hfront.unique hfront'
  have hrest : AccountsAll scope (index + front.length + 1) rest := by
    intro pre s post heq before part mid hpart
    have hindex : index + front.length + 1 + pre.length
        = index + (front ++ opening :: pre).length := by
      simp only [List.length_append, List.length_cons]
      omega
    rw [hindex] at hpart ⊢
    exact hl (front ++ opening :: pre) s post (by simp [heq]) before part mid hpart
  rw [get?_locals_of_bodyCode hrest hback hname]
  rw [hopening] at hopened
  cases gives_of_yields hopened
  exact Table.get?_insert_self _ _ _

/-! ## Entries -/

/-- Numbers from that of the environment to the one drawn last are written. -/
def Entry.Fills (f : Function) (e : Entry) : Prop :=
  ∀ id, f.registerCount ≤ id → id ≤ e.drawn → Writes e.code id

theorem Entry.Fills.receive {abi : Machine.Abi} {f : Function} {e received : Entry}
    {position : Nat} {p : Param} (h : e.Fills f)
    (hok : e.receive abi position p origin = .ok received) :
    received.Fills f := by
  obtain ⟨r, -, hcode, -, hdrawn⟩ := Entry.receive_eq_ok hok
  intro id hlow hid
  rw [hcode]
  by_cases hold : id ≤ e.drawn
  · exact (h id hlow hold).left _
  · obtain rfl : id = e.drawn + 1 := by omega
    exact Writes.last
      (i := .mov (sizeOf p.type) (.fixed r) (.pseudo ⟨e.drawn + 1, sizeOf p.type⟩))
      List.mem_cons_self _

theorem Entry.Fills.receiveAll {abi : Machine.Abi} {f : Function} {e received : Entry}
    {position : Nat} {params : List Param} (h : e.Fills f)
    (hok : e.receiveAll abi position origin params = .ok received) : received.Fills f := by
  induction params generalizing e position with
  | nil =>
    cases hok
    exact h
  | cons p params ih =>
    obtain ⟨mid, hmid, hok⟩ := bind_eq_ok.1 hok
    exact ih (h.receive hmid) hok

/-- The beginning of a function writes what it draws. -/
theorem fills_ofFunction {abi : Machine.Abi} {f : Function} {entry : Entry}
    (h : Entry.ofFunction abi f origin = .ok entry) : entry.Fills f := by
  obtain ⟨r, -, h⟩ := bind_eq_ok.1 h
  have hstart : Entry.Fills f
      { code := [.mov .quad (.fixed r) (.pseudo (environment f))],
        drawn := (environment f).id } := by
    intro id hlow hid
    obtain rfl : id = (environment f).id := Nat.le_antisymm hid hlow
    exact .of_mem List.mem_cons_self List.mem_cons_self
  rcases ite_eq_ok.1 h with ⟨-, h⟩ | ⟨-, h⟩
  · obtain ⟨received, hreceived, h⟩ := bind_eq_ok.1 h
    exact (hstart.receive hreceived).receiveAll h
  · exact hstart.receiveAll h

end Selection

end Jil
