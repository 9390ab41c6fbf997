/-
Jil.Proofs.Linkage — the assembly unit of a class is closed.

A compiled function places the labels that its stream places and refers to what
its stream refers to (`Renders`): expansion changes where values are, not what is
named. The stream jumps to labels that it places, since the allocator looks every
target up; it calls functions of the class, under the symbols that they are given,
and uses the static members and constants of the table. The table only grows while
further functions are compiled, so what was asked for stays in it. Together: in the
text of a class that was compiled, every name is defined once, and every name that
is used is defined (`ClassUnit.closed_of_compile`).
-/
import Jil.Proofs.Allocated
import Jil.Proofs.Compiled
import Jil.Proofs.NameFamilies
import Jil.Proofs.References

namespace Jil

open Assembly (IsName IsSymbol StringTable)
open Machine (Abi)
open Pseudo (bind_eq_ok)

/-! ## Expansion -/

namespace Pseudo

open Machine (AluOp Size)

variable {a : Assignment} {code rest : List Instr} {body back : List Machine.Instr}

/-- Machine code that places the labels of a stream, and refers to what the stream refers
to. -/
structure Renders (code : List Instr) (body : List Machine.Instr) : Prop where
  placed : Machine.placedLabels body = placedLabels code
  jumps : ∀ j ∈ body, ∀ name ∈ j.jumpTarget?, ∃ i ∈ code, i.jumpTarget? = some name
  callees : ∀ j ∈ body, ∀ name ∈ j.callee?, name ∈ code.filterMap Instr.callee?
  data : ∀ j ∈ body, ∀ name ∈ j.data, name ∈ code.flatMap Instr.data

namespace Renders

theorem append (h : Renders code body) (h' : Renders rest back) :
    Renders (code ++ rest) (body ++ back) where
  placed := by
    rw [Machine.placedLabels_append, placedLabels_append, h.placed, h'.placed]
  jumps := List.forall_mem_append.2
    ⟨fun j hj name hname =>
      (h.jumps j hj name hname).imp fun _ hi => ⟨List.mem_append_left _ hi.1, hi.2⟩,
    fun j hj name hname =>
      (h'.jumps j hj name hname).imp fun _ hi => ⟨List.mem_append_right _ hi.1, hi.2⟩⟩
  callees := by
    rw [List.filterMap_append]
    exact List.forall_mem_append.2
      ⟨fun j hj name hname => List.mem_append_left _ (h.callees j hj name hname),
        fun j hj name hname => List.mem_append_right _ (h'.callees j hj name hname)⟩
  data := by
    rw [List.flatMap_append]
    exact List.forall_mem_append.2
      ⟨fun j hj name hname => List.mem_append_left _ (h.data j hj name hname),
        fun j hj name hname => List.mem_append_right _ (h'.data j hj name hname)⟩

end Renders

/-- Machine code without labels, jumps and calls, which uses only the data of some symbols. -/
def OnlyData (data : List String) (body : List Machine.Instr) : Prop :=
  ∀ j ∈ body, j.placedLabel? = none ∧ j.jumpTarget? = none ∧ j.callee? = none
    ∧ ∀ name ∈ j.data, name ∈ data

theorem OnlyData.append {data : List String} (h : OnlyData data body)
    (h' : OnlyData data back) :
    OnlyData data (body ++ back) :=
  List.forall_mem_append.2 ⟨h, h'⟩

theorem OnlyData.mono {data more : List String} (h : OnlyData data body)
    (hmore : ∀ name ∈ data, name ∈ more) : OnlyData more body :=
  fun j hj => ⟨(h j hj).1, (h j hj).2.1, (h j hj).2.2.1,
    fun name hname => hmore name ((h j hj).2.2.2 name hname)⟩

theorem OnlyData.renders (h : OnlyData (code.flatMap Instr.data) body)
    (hcode : placedLabels code = []) : Renders code body where
  placed := by
    rw [hcode, Machine.placedLabels, List.filterMap_eq_nil_iff]
    exact fun j hj => (h j hj).1
  jumps j hj name hname := by
    rw [(h j hj).2.1] at hname
    cases hname
  callees j hj name hname := by
    rw [(h j hj).2.2.1] at hname
    cases hname
  data j hj := (h j hj).2.2.2

theorem OnlyData.renders_nil (h : OnlyData [] body) : Renders [] body :=
  OnlyData.renders (show OnlyData (([] : List Instr).flatMap Instr.data) body from h) rfl

/-- Operands keep their symbols, and addresses are loaded without any. -/
theorem Operand.symbol_of_resolve {o : Operand} {before : List Machine.Instr}
    {m : Machine.Operand} (h : o.resolve a = .ok (before, m)) :
    m.symbol? = o.symbol? ∧ OnlyData [] before := by
  refine ⟨?_, fun j hj => ?_⟩
  · cases o with
    | pseudo p =>
      obtain ⟨location, -, h⟩ := bind_eq_ok.1 h
      cases h
      cases location <;> rfl
    | indirect base disp =>
      obtain ⟨location, -, h⟩ := bind_eq_ok.1 h
      cases location <;> · cases h; rfl
    | _ =>
      cases h
      rfl
  · obtain ⟨offset, rfl⟩ := load_of_resolve h hj
    exact ⟨rfl, rfl, rfl, nofun⟩

theorem onlyData_expandAlu {op : AluOp} {size : Size} {src dest : Machine.Operand} :
    OnlyData (src.symbol?.toList ++ dest.symbol?.toList) (expandAlu op size src dest) := by
  intro j hj
  unfold expandAlu at hj
  split at hj
  · simp only [List.mem_cons, List.not_mem_nil, or_false] at hj
    rcases hj with rfl | rfl | rfl <;>
      simp +contextual [Machine.Instr.mov, Machine.Instr.placedLabel?,
        Machine.Instr.jumpTarget?,
        Machine.Instr.callee?, Machine.Instr.data, scratch, Machine.Operand.symbol?]
  · split at hj
    · simp only [List.mem_cons, List.not_mem_nil, or_false] at hj
      rcases hj with rfl | rfl <;>
        simp +contextual [Machine.Instr.mov, Machine.Instr.placedLabel?,
          Machine.Instr.jumpTarget?,
          Machine.Instr.callee?, Machine.Instr.data, scratch, Machine.Operand.symbol?]
    · obtain rfl := List.mem_singleton.1 hj
      exact ⟨rfl, rfl, rfl, fun name hname => hname⟩

/-- An operation with a source, whose result goes to a register first. -/
theorem onlyData_expandInto {size : Size} {operation : Machine.Reg → Machine.Instr}
    {src dest : Machine.Operand}
    (h : ∀ r, (operation r).placedLabel? = none ∧ (operation r).jumpTarget? = none
      ∧ (operation r).callee? = none ∧ (operation r).data = src.symbol?.toList) :
    OnlyData (src.symbol?.toList ++ dest.symbol?.toList) (expandInto size operation dest) := by
  have hoperation : ∀ r, OnlyData (src.symbol?.toList ++ dest.symbol?.toList) [operation r] :=
    fun r => List.forall_mem_singleton.2 ⟨(h r).1, (h r).2.1, (h r).2.2.1,
      fun name hname => List.mem_append_left _ ((h r).2.2.2 ▸ hname)⟩
  unfold expandInto
  split
  · exact hoperation _
  · refine (hoperation _).append
      (List.forall_mem_singleton.2 ⟨rfl, rfl, rfl, fun name hname => ?_⟩)
    exact List.mem_append_right _ hname

/-- The parts of the expansion of an instruction with a source and a destination. -/
theorem onlyData_append_resolved {src dest : Operand}
    {before between rest : List Machine.Instr} {m m' : Machine.Operand}
    (hsrc : src.resolve a = .ok (before, m)) (hdest : dest.resolve a = .ok (between, m'))
    (hrest : OnlyData (m.symbol?.toList ++ m'.symbol?.toList) rest) :
    OnlyData (src.symbol?.toList ++ dest.symbol?.toList) (before ++ between ++ rest) := by
  obtain ⟨hm, hbefore⟩ := Operand.symbol_of_resolve hsrc
  obtain ⟨hm', hbetween⟩ := Operand.symbol_of_resolve hdest
  rw [← hm, ← hm']
  exact ((hbefore.mono nofun).append (hbetween.mono nofun)).append hrest

theorem onlyData_expandUnary {o : Operand} {operation : Machine.Operand → Machine.Instr}
    (h : expandUnary a o operation = .ok body)
    (hoperation : ∀ m, OnlyData m.symbol?.toList [operation m]) :
    OnlyData o.symbol?.toList body := by
  obtain ⟨⟨before, m⟩, hresolve, h⟩ := bind_eq_ok.1 h
  cases h
  obtain ⟨hsymbol, hbefore⟩ := Operand.symbol_of_resolve hresolve
  exact (hbefore.mono nofun).append (hsymbol ▸ hoperation m)

/-- The expansion of an instruction refers to what the instruction refers to. -/
theorem renders_expand {i : Instr} (h : i.expand a = .ok body) : Renders [i] body := by
  have hone : ∀ o : Operand, [o].filterMap Operand.symbol? = o.symbol?.toList := fun o => by
    cases ho : o.symbol? <;> simp [ho]
  have hdata : ∀ {i : Instr} {o : Operand}, i.operands = [o] →
      [i].flatMap Instr.data = o.symbol?.toList := fun {i o} ho => by
    simp [Instr.data, ho, hone]
  have htwo : ∀ {i : Instr} {src dest : Operand}, i.operands = [src, dest] →
      [i].flatMap Instr.data = src.symbol?.toList
        ++ dest.symbol?.toList := fun {i src dest} ho => by
    have hsplit : [src, dest] = [src] ++ [dest] := rfl
    simp only [List.flatMap_cons, List.flatMap_nil, List.append_nil, Instr.data, ho, hsplit,
      List.filterMap_append, hone]
  cases i with
  | alu op size src dest =>
    obtain ⟨⟨before, m⟩, hsrc, h⟩ := bind_eq_ok.1 h
    obtain ⟨⟨between, m'⟩, hdest, h⟩ := bind_eq_ok.1 h
    cases h
    refine OnlyData.renders ?_ rfl
    rw [htwo rfl]
    exact onlyData_append_resolved hsrc hdest onlyData_expandAlu
  | extend signed narrow wide src dest | lea src dest =>
    obtain ⟨⟨before, m⟩, hsrc, h⟩ := bind_eq_ok.1 h
    obtain ⟨⟨between, m'⟩, hdest, h⟩ := bind_eq_ok.1 h
    cases h
    refine OnlyData.renders ?_ rfl
    rw [htwo rfl]
    exact onlyData_append_resolved hsrc hdest (onlyData_expandInto fun _ =>
      ⟨rfl, rfl, rfl, rfl⟩)
  | neg size dest | not size dest | shift op size dest | idiv size dest | setcc cond dest =>
    refine OnlyData.renders ?_ rfl
    rw [hdata rfl]
    exact onlyData_expandUnary h fun m =>
      List.forall_mem_singleton.2 ⟨rfl, rfl, rfl, fun name hname => hname⟩
  | signExtendAccumulator size | callIndirect base disp =>
    cases h
    exact OnlyData.renders
      (List.forall_mem_singleton.2 ⟨rfl, rfl, rfl, List.forall_mem_nil _⟩) rfl
  | jcc cond target | jmp target | label name | call symbol =>
    cases h
    constructor <;>
      simp [Machine.placedLabels, Machine.Instr.placedLabel?, Machine.Instr.jumpTarget?,
        Machine.Instr.callee?, Machine.Instr.data, Instr.placedLabel?, Instr.jumpTarget?,
        Instr.callee?]

end Pseudo

/-! ## Functions -/

namespace Assembly.Function

open Pseudo (OnlyData Renders)

variable {abi : Abi} {symbol exitLabel : String} {code : List Pseudo.Instr} {a : Allocation}
  {g : Function}

theorem onlyData_adjustStack (op : Machine.AluOp) (bytes : Nat) :
    OnlyData [] (adjustStack op bytes) := by
  unfold adjustStack
  split
  · exact List.forall_mem_nil _
  · exact List.forall_mem_singleton.2 ⟨rfl, rfl, rfl, nofun⟩

theorem onlyData_prologue (abi : Abi) (a : Allocation) : OnlyData [] (prologue abi a) := by
  have hpush : OnlyData [] (a.saved.map .push) :=
    List.forall_mem_map.2 fun _ _ => ⟨rfl, rfl, rfl, nofun⟩
  have henter : OnlyData [] [.push .rbp, .mov .quad (.reg .rsp) (.reg .rbp)] :=
    List.forall_mem_cons.2 ⟨⟨rfl, rfl, rfl, nofun⟩,
      List.forall_mem_singleton.2 ⟨rfl, rfl, rfl, nofun⟩⟩
  exact ((henter.append (onlyData_adjustStack _ _)).append hpush).append
    (onlyData_adjustStack _ _)

theorem onlyData_epilogue (abi : Abi) (a : Allocation) : OnlyData [] (epilogue abi a) := by
  have hpop : OnlyData [] (a.saved.reverse.map .pop) :=
    List.forall_mem_map.2 fun _ _ => ⟨rfl, rfl, rfl, nofun⟩
  have hleave : OnlyData [] [.leave, .ret] :=
    List.forall_mem_cons.2 ⟨⟨rfl, rfl, rfl, nofun⟩,
      List.forall_mem_singleton.2 ⟨rfl, rfl, rfl, nofun⟩⟩
  exact ((onlyData_adjustStack _ _).append hpop).append hleave

theorem renders_place {i : Pseudo.Instr} {part : List Machine.Instr}
    (h : place abi a exitLabel i = .ok part) : Renders [i] part := by
  obtain ⟨expanded, hexpand, h⟩ := bind_eq_ok.1 h
  cases h
  have hexpanded := Pseudo.renders_expand hexpand
  split
  · simpa using hexpanded.append (onlyData_epilogue abi a).renders_nil
  · exact hexpanded

/-- A function refers to what its stream refers to. -/
theorem renders_ofAllocation (h : ofAllocation abi symbol code exitLabel a = .ok g) :
    g.symbol = symbol ∧ Renders code g.body := by
  obtain ⟨hsymbol, -, body, hbody, hrenders⟩ := exists_body (P := Renders) h
    (OnlyData.renders_nil (List.forall_mem_nil _)) fun hpart hrest =>
    (renders_place hpart).append hrest
  exact ⟨hsymbol, hbody ▸ (onlyData_prologue abi a).renders_nil.append hrenders⟩

end Assembly.Function

/-- The functions that statements call are those of the class. -/
theorem Selection.exists_function_of_usesAll {scope : Selection.Scope} {l : List Located}
    {services : List Native.Service} {callees : List String}
    (h : UsesAll scope l services callees) {name : String} (hname : name ∈ callees) :
    ∃ f ∈ scope.unit.functions, name = scope.unit.functionSymbol scope.abi f := by
  have hone : ∀ {origin : Origin} {services : List Native.Service} {callees : List String}
      {s : Statement}, s.Uses scope origin services callees → name ∈ callees →
        ∃ f ∈ scope.unit.functions, name = scope.unit.functionSymbol scope.abi f := by
    intro origin services callees s huses hname
    cases s with
    | callActual object owner method args result =>
      obtain ⟨types, target, -, -, -, rfl⟩ := huses
      unfold ClassUnit.callees at hname
      split at hname
      · obtain ⟨f, hf, rfl⟩ := List.mem_map.1 hname
        exact ⟨f, List.mem_of_find?_eq_some (Option.mem_toList.1 hf), rfl⟩
      · cases hname
    | callVirtual object method args result =>
      obtain ⟨_, _, _, -, -, -, -, rfl⟩ := huses
      cases hname
    | _ =>
      obtain ⟨-, rfl⟩ := huses
      cases hname
  induction h with
  | nil => cases hname
  | cons hs _ ih => exact (List.mem_append.1 hname).elim (hone hs) ih

/-- A compiled function beside the function that it comes from, which stands at a position of a
class, with a table of `size` constants. -/
structure Linked (u : ClassUnit) (abi : Abi) (position : Nat) (f : Function) (size : Nat)
    (g : Assembly.Function) : Prop where
  symbol : g.symbol = u.functionSymbol abi f
  labels : ∃ scope : Selection.Scope, scope.position = position ∧ Machine.placedLabels g.body
    = Selection.bodyLabels scope 0 f.statements ++ [Selection.exitLabel scope.position]
  jumps : ∀ j ∈ g.body, ∀ name ∈ j.jumpTarget?, name ∈ Machine.placedLabels g.body
  callees : ∀ j ∈ g.body, ∀ name ∈ j.callee?, ∃ f ∈ u.functions, name = u.functionSymbol abi f
  data : ∀ j ∈ g.body, ∀ name ∈ j.data,
    name = Symbol.ofStatics abi u.name ∨ ∃ k < size, name = StringTable.labelAt k

namespace Linked

variable {u : ClassUnit} {abi : Abi} {position : Nat} {f : Function} {size : Nat}
  {g : Assembly.Function}

theorem labelOf (h : Linked u abi position f size g) {name : String}
    (hname : name ∈ Machine.placedLabels g.body) : Selection.LabelOf position name := by
  obtain ⟨scope, rfl, hlabels⟩ := h.labels
  rw [hlabels, List.mem_append, List.mem_singleton] at hname
  obtain hname | rfl := hname
  · exact Selection.labelOf_of_mem_bodyLabels hname
  · exact Selection.labelOf_exitLabel _

theorem legible (h : Linked u abi position f size g) (habi : abi ∈ Abi.all) : g.Legible where
  symbol := h.symbol ▸ (Symbol.isSymbol_functionSymbol habi u f).isName
  body j hj name hname := by
    simp only [Machine.Instr.names, List.mem_append, Option.mem_toList] at hname
    obtain ((hname | hname) | hname) | hname := hname
    · exact (h.labelOf (List.mem_filterMap.2 ⟨j, hj, hname⟩)).isName
    · exact (h.labelOf (h.jumps j hj name hname)).isName
    · obtain ⟨f, -, rfl⟩ := h.callees j hj name hname
      exact (Symbol.isSymbol_functionSymbol habi u f).isName
    · obtain rfl | ⟨k, -, rfl⟩ := h.data j hj name hname
      · exact (Symbol.isSymbol_ofStatics habi _).isName
      · exact StringTable.isName_labelAt k

/-- The names that one function defines differ when its labels do. -/
theorem nodup (h : Linked u abi position f size g) (habi : abi ∈ Abi.all)
    (hlabels : f.labels.Nodup) :
    (g.symbol :: Machine.placedLabels g.body).Nodup := by
  refine List.nodup_cons.2 ⟨fun hmem => ?_, ?_⟩
  · rw [h.symbol] at hmem
    exact (Symbol.isSymbol_functionSymbol habi u f).ne_of_dot (h.labelOf hmem).dot_mem rfl
  · obtain ⟨scope, rfl, hplaced⟩ := h.labels
    rw [hplaced, List.nodup_append]
    refine ⟨Selection.nodup_bodyLabels hlabels, by simp, fun a ha b hb heq => ?_⟩
    exact Selection.exitLabel_not_mem_bodyLabels (List.mem_singleton.1 hb ▸ heq ▸ ha)

/-- Functions at different places whose symbols differ define different names. -/
theorem disjoint {other : Nat} {f' : Function} {g' : Assembly.Function} (habi : abi ∈ Abi.all)
    (h : Linked u abi position f size g) (h' : Linked u abi other f' size g')
    (hposition : position ≠ other) (hsymbol : g.symbol ≠ g'.symbol) :
    ∀ a ∈ g.symbol :: Machine.placedLabels g.body,
      ∀ b ∈ g'.symbol :: Machine.placedLabels g'.body, a ≠ b := by
  have hfirst : IsSymbol g.symbol := h.symbol ▸ Symbol.isSymbol_functionSymbol habi u f
  have hsecond : IsSymbol g'.symbol := h'.symbol ▸ Symbol.isSymbol_functionSymbol habi u f'
  intro a ha b hb
  obtain rfl | ha := List.mem_cons.1 ha
  · obtain rfl | hb := List.mem_cons.1 hb
    · exact hsymbol
    · exact hfirst.ne_of_dot (h'.labelOf hb).dot_mem
  · obtain rfl | hb := List.mem_cons.1 hb
    · exact (hsecond.ne_of_dot (h.labelOf ha).dot_mem).symm
    · rintro rfl
      exact hposition ((h.labelOf ha).position_eq (h'.labelOf hb))

end Linked

section

variable {u : ClassUnit} {abi : Abi} {position : Nat} {f : Function}
  {strings interned : StringTable} {p : Pseudo.Function}

/-- What the stream of a function is called, and the labels that it places. -/
theorem Selection.placed_ofFunction
    (h : ofFunction u abi position f strings = (.ok p, interned)) :
    p.symbol = u.functionSymbol abi f ∧ ∃ scope : Scope, scope.position = position
      ∧ Pseudo.placedLabels p.code = bodyLabels scope 0 f.statements
        ++ [exitLabel scope.position] := by
  obtain ⟨scope, entry, body, state, hscope, hbody, rfl, rfl⟩ := ofFunction_eq_ok h
  obtain ⟨types, htypes⟩ := exists_types_of_scopeOf hscope
  obtain ⟨copies, -, rfl, hentry⟩ := scopeOf_eq_ok htypes hscope
  obtain ⟨w, hsound, -⟩ := @Entry.sound_of_ofFunction abi f types entry _ hentry
  have hfront : Pseudo.placedLabels entry.code = [] := by
    refine List.filterMap_eq_nil_iff.2 fun i hi => ?_
    obtain ⟨r, p, -, -, rfl⟩ := hsound.receives i hi
    rfl
  refine ⟨rfl, ⟨u, f, position, abi, types, copies, entry.params⟩, rfl, ?_⟩
  simp only [Pseudo.placedLabels_append, hfront, placed_bodyCode hbody, List.nil_append]
  rfl

/-- A function that was compiled is linked, whatever constants are added behind it. -/
theorem linked_of_ofPseudo
    (h : Selection.ofFunction u abi position f strings = (.ok p, interned))
    {g : Assembly.Function} (hg : Assembly.Function.ofPseudo abi p = .ok g) :
    strings.size ≤ interned.size ∧ ∀ size, interned.size ≤ size →
    Linked u abi position f size g := by
  obtain ⟨scope, entry, hscope, hsize, haccounts⟩ := Selection.accounted_of_ofFunction h
  obtain ⟨types, htypes⟩ := Selection.exists_types_of_scopeOf hscope
  obtain ⟨copies, -, rfl, -⟩ := Selection.scopeOf_eq_ok htypes hscope
  obtain ⟨hsymbol, hplaced⟩ := Selection.placed_ofFunction h
  refine ⟨hsize, fun size hn => ?_⟩
  obtain ⟨⟨services, callees, huses, hrefers⟩, -⟩ := haccounts size hn
  obtain ⟨a, ha, hof⟩ := Assembly.Function.ofPseudo_eq_ok hg
  obtain ⟨live, hlive, -⟩ := bind_eq_ok.1 ha
  obtain ⟨hname, hrenders⟩ := Assembly.Function.renders_ofAllocation hof
  constructor
  · exact hname.trans hsymbol
  · rw [hrenders.placed]
    exact hplaced
  · intro j hj name hjump
    rw [hrenders.placed]
    obtain ⟨i, hi, hjump⟩ := hrenders.jumps j hj name hjump
    obtain ⟨index, hindex⟩ := List.getElem?_of_mem hi
    obtain ⟨target, htarget⟩ := Pseudo.exists_target_of_ofCode hlive hindex hjump
    exact List.mem_filterMap.2
      ⟨_, List.mem_of_getElem? (Pseudo.getElem?_of_labelIndex? htarget), rfl⟩
  · intro j hj name hcallee
    have hcallee := hrenders.callees j hj name hcallee
    rw [hrefers.callees] at hcallee
    exact Selection.exists_function_of_usesAll huses hcallee
  · intro j hj name hdata
    exact hrefers.data name (hrenders.data j hj name hdata)

end

/-- Functions are compiled one by one, the first at a position, with a common table. -/
structure LinkedAll (u : ClassUnit) (abi : Abi) (position : Nat) (functions : List Function)
    (size : Nat) (compiled : List Assembly.Function) : Prop where
  length : compiled.length = functions.length
  linked : ∀ (n : Nat) (f : Function) (g : Assembly.Function), functions[n]? = some f →
    compiled[n]? = some g → Linked u abi (position + n) f size g

theorem LinkedAll.cons {u : ClassUnit} {abi : Abi} {position : Nat} {f : Function}
    {functions : List Function} {size : Nat} {g : Assembly.Function}
    {compiled : List Assembly.Function} (h : Linked u abi position f size g)
    (hrest : LinkedAll u abi (position + 1) functions size compiled) :
    LinkedAll u abi position (f :: functions) size (g :: compiled) where
  length := congrArg (· + 1) hrest.length
  linked n f' g' hf hg := by
    cases n with
    | zero =>
      cases hf
      cases hg
      exact h
    | succ n =>
      rw [show position + (n + 1) = position + 1 + n by omega]
      exact hrest.linked n f' g' hf hg

namespace ClassUnit

variable {u : ClassUnit} {abi : Abi}

/-- The functions of a class are linked with the table that all of them leave. -/
theorem linkedAll_of_compileFunctions {session after : Session} {position : Nat}
    {strings : StringTable} {functions : List Function}
    {compiled : List Assembly.Function × StringTable}
    (h : u.compileFunctions position session strings functions = (after, .ok compiled)) :
    strings.size ≤ compiled.2.size
      ∧ LinkedAll u session.abi position functions compiled.2.size compiled.1 := by
  induction functions generalizing position session strings compiled with
  | nil =>
    cases h
    exact ⟨Nat.le_refl _, rfl, nofun⟩
  | cons f functions ih =>
    obtain ⟨p, interned, g, rest, hselect, hg, hrest, rfl⟩ := compileFunctions_cons h
    obtain ⟨hfirst, hlinked⟩ := linked_of_ofPseudo hselect hg
    obtain ⟨hlast, hall⟩ := ih hrest
    exact ⟨Nat.le_trans hfirst hlast, .cons (hlinked _ hlast) hall⟩

end ClassUnit

/-! ## Closed units -/

namespace Assembly

open Machine (placedLabels)

/-- Assembly text in which every name is defined once, and every name that is used is
defined. -/
structure Listing.Closed (l : Listing) : Prop where
  /-- What defines a name: functions with their labels, the static members, the constants. -/
  defined :
    definedNames l.text = l.functions.flatMap (fun g => g.symbol :: placedLabels g.body)
    ++ l.staticSymbol :: l.strings.map Prod.fst
  once : (definedNames l.text).Nodup
  /-- The text of a function defines its symbol and its labels. -/
  parts : ∀ g ∈ l.functions, definedNames g.text = g.symbol :: placedLabels g.body
  /-- A jump goes to a label of its function. -/
  jumps : ∀ g ∈ l.functions, ∀ i ∈ g.body, ∀ name ∈ i.jumpTarget?, name ∈ placedLabels g.body
  /-- A call of a symbol is one of a function in the text. -/
  calls :
    ∀ g ∈ l.functions, ∀ i ∈ g.body, ∀ name ∈ i.callee?, name ∈ l.functions.map Function.symbol
  data : ∀ g ∈ l.functions, ∀ i ∈ g.body, ∀ name ∈ i.data,
    name ∈ l.staticSymbol :: l.strings.map Prod.fst

end Assembly

namespace LinkedAll

variable {u : ClassUnit} {abi : Abi} {strings : StringTable} {l : Assembly.Listing}

theorem exists_linked {position size : Nat} {functions : List Function}
    {compiled : List Assembly.Function} (h : LinkedAll u abi position functions size compiled)
    {g : Assembly.Function} (hg : g ∈ compiled) :
    ∃ n, ∃ f ∈ functions, Linked u abi (position + n) f size g := by
  obtain ⟨n, hn, rfl⟩ := List.mem_iff_getElem.1 hg
  have hn' : n < functions.length := h.length ▸ hn
  exact ⟨n, _, List.getElem_mem hn',
    h.linked n _ _ (List.getElem?_eq_getElem hn') (List.getElem?_eq_getElem hn)⟩

/-- Every function is there, under its symbol. -/
theorem symbol_mem {position size : Nat} {functions : List Function}
    {compiled : List Assembly.Function} (h : LinkedAll u abi position functions size compiled)
    {f : Function} (hf : f ∈ functions) :
    u.functionSymbol abi f ∈ compiled.map Assembly.Function.symbol := by
  obtain ⟨n, hn, rfl⟩ := List.mem_iff_getElem.1 hf
  have hn' : n < compiled.length := h.length.symm ▸ hn
  have hlinked := h.linked n _ _ (List.getElem?_eq_getElem hn) (List.getElem?_eq_getElem hn')
  exact List.mem_map.2 ⟨_, List.getElem_mem hn', hlinked.symbol⟩

/-- Functions with different keys have different symbols, also once they are compiled. -/
theorem pairwise (habi : abi ∈ Abi.all) {position size : Nat}
    {compiled : List Assembly.Function}
    (h : LinkedAll u abi position u.functions size compiled)
    (hkeys : (u.functions.map Function.key).Nodup)
    (hexportable : ∀ f ∈ u.functions, f.Exportable) :
    compiled.Pairwise fun g g' => ∀ a ∈ g.symbol :: Machine.placedLabels g.body,
      ∀ b ∈ g'.symbol :: Machine.placedLabels g'.body, a ≠ b := by
  rw [List.pairwise_iff_getElem]
  intro m n hm hn hlt
  have hm' : m < u.functions.length := h.length ▸ hm
  have hn' : n < u.functions.length := h.length ▸ hn
  have hfirst := h.linked m _ _ (List.getElem?_eq_getElem hm') (List.getElem?_eq_getElem hm)
  have hsecond := h.linked n _ _ (List.getElem?_eq_getElem hn') (List.getElem?_eq_getElem hn)
  refine hfirst.disjoint habi hsecond (by omega) fun hsymbol => ?_
  rw [hfirst.symbol, hsecond.symbol] at hsymbol
  have hkey :=
    ClassUnit.key_eq_of_functionSymbol_eq (List.getElem_mem hm') (List.getElem_mem hn')
    (hexportable _ (List.getElem_mem hm')) (hexportable _ (List.getElem_mem hn')) hsymbol
  rw [List.Nodup, List.pairwise_map, List.pairwise_iff_getElem] at hkeys
  exact hkeys m n hm' hn' hlt hkey

/-- The names of the functions, of the static members and of the constants all differ. -/
theorem nodup (habi : abi ∈ Abi.all) {position : Nat} {compiled : List Assembly.Function}
    (h : LinkedAll u abi position u.functions strings.size compiled)
    (hlabels : ∀ f ∈ u.functions, f.labels.Nodup)
    (hkeys : (u.functions.map Function.key).Nodup)
    (hexportable : ∀ f ∈ u.functions, f.Exportable) :
    (compiled.flatMap (fun g => g.symbol :: Machine.placedLabels g.body)
      ++ Symbol.ofStatics abi u.name :: strings.entries.map Prod.fst).Nodup := by
  have hstatics := Symbol.isSymbol_ofStatics habi u.name
  have hconstant : ∀ {name}, name ∈ strings.entries.map Prod.fst →
      ∃ k, name = StringTable.labelAt k := by
    intro name hname
    rw [StringTable.map_fst_entries] at hname
    obtain ⟨k, -, rfl⟩ := List.mem_map.1 hname
    exact ⟨k, rfl⟩
  rw [List.nodup_append, List.nodup_cons, List.Nodup, List.pairwise_flatMap]
  refine ⟨⟨fun g hg => ?_, h.pairwise habi hkeys hexportable⟩, ⟨fun hmem => ?_, ?_⟩, ?_⟩
  · obtain ⟨n, f, hf, hlinked⟩ := h.exists_linked hg
    exact hlinked.nodup habi (hlabels f hf)
  · obtain ⟨k, hk⟩ := hconstant hmem
    exact hstatics.ne_of_dot (StringTable.dot_mem_labelAt k) hk
  · exact strings.nodup_labels
  · intro a ha b hb
    obtain ⟨g, hg, ha⟩ := List.mem_flatMap.1 ha
    obtain ⟨n, f, -, hlinked⟩ := h.exists_linked hg
    obtain rfl | ha := List.mem_cons.1 ha
    · rw [hlinked.symbol]
      obtain rfl | hb := List.mem_cons.1 hb
      · exact (Symbol.ofStatics_ne_functionSymbol u f).symm
      · obtain ⟨k, rfl⟩ := hconstant hb
        exact (Symbol.isSymbol_functionSymbol habi u f).ne_of_dot
          (StringTable.dot_mem_labelAt k)
    · have hlabel := hlinked.labelOf ha
      obtain rfl | hb := List.mem_cons.1 hb
      · exact (hstatics.ne_of_dot hlabel.dot_mem).symm
      · obtain ⟨k, rfl⟩ := hconstant hb
        exact hlabel.ne_labelAt k

/-- The listing of a class whose functions are linked. -/
theorem closed (habi : abi ∈ Abi.all) {position : Nat}
    (h : LinkedAll u abi position u.functions strings.size l.functions)
    (hstatics : l.staticSymbol = Symbol.ofStatics abi u.name)
    (hstrings : l.strings = strings.entries) (hlabels : ∀ f ∈ u.functions, f.labels.Nodup)
    (hkeys : (u.functions.map Function.key).Nodup)
    (hexportable : ∀ f ∈ u.functions, f.Exportable) : l.Closed := by
  have hlegible : l.Legible :=
    { functions := fun g hg => by
        obtain ⟨n, f, -, hlinked⟩ := h.exists_linked hg
        exact hlinked.legible habi
      statics := hstatics ▸ (Symbol.isSymbol_ofStatics habi u.name).isName
      strings := fun s hs => by
        have hlabel := List.mem_map_of_mem (f := Prod.fst) hs
        rw [hstrings, StringTable.map_fst_entries] at hlabel
        obtain ⟨k, -, hk⟩ := List.mem_map.1 hlabel
        exact hk ▸ StringTable.isName_labelAt k }
  constructor
  · exact hlegible.definedNames_text
  · rw [hlegible.definedNames_text, hstatics, hstrings]
    exact h.nodup habi hlabels hkeys hexportable
  · exact fun g hg => (hlegible.functions g hg).definedNames_text
  · intro g hg
    obtain ⟨n, f, -, hlinked⟩ := h.exists_linked hg
    exact hlinked.jumps
  · intro g hg i hi name hname
    obtain ⟨n, f, -, hlinked⟩ := h.exists_linked hg
    obtain ⟨f', hf', rfl⟩ := hlinked.callees i hi name hname
    exact h.symbol_mem hf'
  · intro g hg i hi name hname
    obtain ⟨n, f, -, hlinked⟩ := h.exists_linked hg
    rw [hstatics, hstrings, StringTable.map_fst_entries]
    obtain rfl | ⟨k, hk, rfl⟩ := hlinked.data i hi name hname
    · exact List.mem_cons_self
    · exact List.mem_cons_of_mem _ (List.mem_map_of_mem (List.mem_range.2 hk))

end LinkedAll

/-- A class in which no function places a label twice, no two functions share their name and
their types, and every function can be exported. -/
structure ClassUnit.Linkable (u : ClassUnit) : Prop where
  labels : ∀ f ∈ u.functions, f.labels.Nodup
  keys : (u.functions.map Function.key).Nodup
  exportable : ∀ f ∈ u.functions, f.Exportable

/-- The text of a class that was compiled defines every name once, and every name that it uses,
when the class is linkable: so it is for every class, in whatever session it is compiled, and
for every source text. -/
theorem ClassUnit.closed_of_compile {abi : Abi} (habi : abi ∈ Abi.all) :
    (∀ {source u : ClassUnit} {session after : Session} {listing : Assembly.Listing},
        session.abi = abi → source.compile session = (u, after, .ok listing) → u.Linkable →
        listing.Closed)
    ∧ ∀ {text source : String} {compiled : Compiled},
        compileText abi text source = .ok compiled → compiled.unit.Linkable →
        compiled.listing.Closed := by
  have hunits : ∀ {source u : ClassUnit} {session after : Session}
      {listing : Assembly.Listing},
      session.abi = abi → source.compile session = (u, after, .ok listing) → u.Linkable →
      listing.Closed := by
    rintro source u session after listing rfl h hlinkable
    obtain ⟨-, strings, hcompiled, hstatics, hstrings⟩ := compile_eq_ok h
    exact (linkedAll_of_compileFunctions hcompiled).2.closed habi hstatics hstrings
      hlinkable.labels hlinkable.keys hlinkable.exportable
  refine ⟨hunits, fun {text source compiled} h => ?_⟩
  obtain ⟨read, session, -, hcompile, -⟩ := compileText_eq_ok h
  exact hunits rfl hcompile

/-- A class with a function that places a label, jumps to it and calls itself. -/
def againText : String :=
  "function static again(Z c) returns V\n\tlabel L0;\n\tgetParam c -> %r0;\n"
    ++ "\tcallActual pkg/Main.again(%r0);\n\tbranch true %r0 L0;\n\treturn;\nend function\n"

/-- Its text defines what it jumps to, what it calls and the constant that it uses. -/
theorem again_is_closed :
    Abi.microsoft ∈ Abi.all ∧ ∃ compiled f g,
      compileText .microsoft againText "pkg/Main.jil" = .ok compiled
        ∧ (∃ read session, ClassUnit.read againText "pkg/Main.jil" = .ok read
          ∧ read.compile { abi := .microsoft }
            = (compiled.unit, session, .ok compiled.listing))
        ∧ compiled.unit.functions = [f] ∧ compiled.unit.Linkable
        ∧ compiled.listing.Closed ∧ compiled.listing.functions = [g]
        ∧ (g.symbol :: Machine.placedLabels g.body, g.body.filterMap Machine.Instr.callee?,
            g.body.flatMap Machine.Instr.data)
          = (["Java_pkg_Main_again", ".LF0_0", ".LF0_exit"], ["Java_pkg_Main_again"],
            [".LC0"]) := by
  have hrun : (compileText .microsoft againText "pkg/Main.jil").toOption.map (fun compiled =>
      (compiled.unit.functions.map fun f => (f.labels, f.key),
        compiled.listing.functions.map fun g => (g.symbol :: Machine.placedLabels g.body,
          g.body.filterMap Machine.Instr.callee?, g.body.flatMap Machine.Instr.data)))
      = some ([([⟨0⟩], ⟨"again", [.boolean]⟩)],
        [(["Java_pkg_Main_again", ".LF0_0", ".LF0_exit"], ["Java_pkg_Main_again"],
          [".LC0"])]) := by
    decide +kernel
  have hmicrosoft : Abi.microsoft ∈ Abi.all := by decide
  cases hcompiled : compileText .microsoft againText "pkg/Main.jil" with
  | error e =>
    rw [hcompiled] at hrun
    cases hrun
  | ok compiled =>
    rw [hcompiled] at hrun
    obtain ⟨hunit, hlisting⟩ := Prod.mk.inj (Option.some.inj hrun)
    obtain ⟨f, hf, hsource⟩ := List.map_eq_singleton_iff.1 hunit
    obtain ⟨g, hg, hplaced⟩ := List.map_eq_singleton_iff.1 hlisting
    obtain ⟨hlabels, hkey⟩ := Prod.mk.inj hsource
    obtain ⟨hname, htypes⟩ := MethodKey.mk.inj hkey
    have hnodup : f.labels.Nodup := by
      rw [hlabels]
      decide
    have hexportable : f.Exportable :=
      ⟨by rw [hname]; decide, by rw [hname]; decide, by rw [htypes]; decide⟩
    have hlinkable : compiled.unit.Linkable :=
      ⟨by simpa [hf] using hnodup, by simp [hf], by simpa [hf] using hexportable⟩
    obtain ⟨read, session, hread, hcompile, -⟩ := compileText_eq_ok hcompiled
    obtain ⟨hunits, -⟩ := ClassUnit.closed_of_compile hmicrosoft
    have hclosed := hunits rfl hcompile hlinkable
    exact ⟨hmicrosoft, compiled, f, g, rfl, ⟨read, session, hread, hcompile⟩, hf, hlinkable,
      hclosed, hg, hplaced⟩

end Jil
