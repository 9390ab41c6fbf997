/-
Jil.Proofs.Segments — selected code keeps the discipline.

What a statement becomes is a `Segment`: its instructions have the shapes that
streams allow, over pseudo-registers that have been drawn, and it reads no
hardware register and no flags that it has not set itself. Segments can be put
behind each other. `Emits` says this of an activity, together with what it
leaves of the state; here it is shown of calls, services and members.
-/
import Jil.Proofs.Discipline
import Jil.Proofs.MemberCode
import Jil.Proofs.Places

namespace Jil.Selection

open Jil.Machine (Abi AluOp Condition ShiftOp Size)
open Jil.Pseudo (Admitted Instr Named Operand Ready Reg bind_eq_ok ite_eq_ok)

/-! ## Segments -/

/-- Code that keeps the discipline wherever it stands. -/
structure Segment (abi : Abi) (w : Supply) (code : List Instr) : Prop where
  fits : ∀ i ∈ code, i.Fits abi w.Has
  admitted : Admitted abi .nothing code

/-- An instruction that reads no hardware register and no flags. -/
def Quiet (i : Instr) : Prop := i.fixedReads = [] ∧ i.readsFlags = false

theorem admitted_of_quiet {abi : Abi} {code : List Instr} (h : ∀ i ∈ code, Quiet i)
    (ready : Ready) :
    Admitted abi ready code := by
  induction code generalizing ready with
  | nil => trivial
  | cons i code ih =>
    obtain ⟨hreads, hflags⟩ := h i List.mem_cons_self
    refine ⟨⟨fun r s hr => ?_, fun hf => ?_⟩,
      ih (fun i hi => h i (List.mem_cons_of_mem _ hi)) _⟩
    · rw [hreads] at hr
      exact absurd hr List.not_mem_nil
    · rw [hflags] at hf
      cases hf

namespace Segment

variable {abi : Abi} {w grown : Supply} {code rest : List Instr}

theorem nil : Segment abi w [] := ⟨fun _ hi => absurd hi List.not_mem_nil, trivial⟩

theorem grow (h : Segment abi w code) (hg : w.Grows grown) : Segment abi grown code :=
  ⟨fun i hi => (h.fits i hi).mono fun _ hp => hp.grow hg, h.admitted⟩

theorem append (h : Segment abi w code) (h' : Segment abi w rest) :
    Segment abi w (code ++ rest) where
  fits i hi := by
    rcases List.mem_append.1 hi with hi | hi
    · exact h.fits i hi
    · exact h'.fits i hi
  admitted := h.admitted.append h'.admitted

theorem of_quiet (h : ∀ i ∈ code, i.Fits abi w.Has ∧ Quiet i) : Segment abi w code :=
  ⟨fun i hi => (h i hi).1, admitted_of_quiet (fun i hi => (h i hi).2) _⟩

/-- One instruction. -/
theorem single {i : Instr} (hfits : i.Fits abi w.Has) (hquiet : Quiet i) :
    Segment abi w [i] := by
  refine of_quiet fun j hj => ?_
  rw [List.mem_singleton] at hj
  subst hj
  exact ⟨hfits, hquiet⟩

/-- A move between pseudo-registers. -/
theorem move {src dest : Reg} (hsrc : w.Has src) (hdest : w.Has dest)
    (hsize : dest.size.bytes ≤ src.size.bytes) : Segment abi w [move dest.size src dest] :=
  single (.move ⟨hsrc, hsize⟩ hdest) ⟨rfl, rfl⟩

end Segment

/-- What an activity emits: more may have been drawn, the local variables are the same, and the
code keeps the discipline. -/
structure Emits (abi : Abi) (w : Supply) (st : State) (code : List Instr) (grown : Supply)
    (after : State) : Prop where
  grows : w.Grows grown
  drawn : grown.drawn = after.drawn
  locals : after.locals = st.locals
  segment : Segment abi grown code

namespace Emits

variable {abi : Abi} {w w' w'' : Supply} {st mid after : State} {code rest : List Instr}

theorem append (h : Emits abi w st code w' mid) (h' : Emits abi w' mid rest w'' after) :
    Emits abi w st (code ++ rest) w'' after where
  grows := h.grows.trans h'.grows
  drawn := h'.drawn
  locals := h'.locals.trans h.locals
  segment := (h.segment.grow h'.grows).append h'.segment

/-- Code over what has been drawn already. -/
theorem of_segment (h : Segment abi w code) (hdrawn : w.drawn = after.drawn)
    (hlocals : after.locals = st.locals) : Emits abi w st code w after :=
  ⟨.refl w, hdrawn, hlocals, h⟩

/-- Emitting keeps the places. -/
theorem arranged {scope : Scope} {locals : Table String Ty} (h : Emits abi w st code w' after)
    (hlaid : Arranged scope locals st w) : Arranged scope locals after w' :=
  hlaid.grow h.grows h.drawn h.locals

end Emits

/-! ## Calls -/

end Jil.Selection

namespace Jil.Native

open Jil.Machine (Abi Size)
open Jil.Pseudo (Instr Reg bind_eq_ok ite_eq_ok)
open Jil.Selection (Quiet Segment Supply)

variable {abi : Abi} {w : Supply} {env : Reg} {origin : Origin} {code : List Instr}

/-- An operand that has been drawn. -/
def Argument.Known (w : Supply) : Argument → Prop
  | .value p _ => w.Has p
  | .address _ => True

theorem Sequence.andThen_outcome {s rest : Sequence} (h : (s.andThen rest).outcome = .ok ()) :
    s.outcome = .ok () ∧ rest.outcome = .ok () ∧ (s.andThen rest).code = s.code
      ++ rest.code := by
  unfold Sequence.andThen at h ⊢
  cases hs : s.outcome with
  | ok u =>
    rw [hs] at h
    exact ⟨rfl, h, rfl⟩
  | error e =>
    rw [hs] at h
    rw [hs] at h
    cases h

theorem named_of_argumentRegister {position : Nat} {r : Machine.Reg}
    (h : argumentRegister abi position = .ok r) : Pseudo.Named abi r := by
  unfold argumentRegister at h
  split at h
  · next r' hr =>
    cases h
    unfold Abi.argument? at hr
    split at hr
    · cases hr
    · exact .inl (List.mem_of_getElem? hr)
  · cases h

theorem fits_marshal {r : Machine.Reg} {a : Argument} {i : Instr} (hr : Pseudo.Named abi r)
    (ha : a.Known w) (h : marshal origin r a = .ok i) : i.Fits abi w.Has ∧ Quiet i := by
  cases a with
  | address symbol =>
    cases h
    exact ⟨.name hr, rfl, rfl⟩
  | value p type =>
    unfold marshal at h
    rcases ite_eq_ok.1 h with ⟨-, h⟩ | ⟨-, h⟩
    · cases h
    rcases ite_eq_ok.1 h with ⟨hsize, h⟩ | ⟨-, h⟩
    · cases h
      exact ⟨.pass ⟨ha, Nat.le_of_eq (by rw [hsize])⟩ hr, rfl, rfl⟩
    · cases h
      exact ⟨.extendInto ha (Nat.le_refl _) hr, rfl, rfl⟩

/-- The moves of operands. -/
theorem segment_loadOperands {position : Nat} {args : List Argument}
    (h : (loadOperands abi origin position args).outcome = .ok ())
    (hargs : ∀ a ∈ args, a.Known w) :
    Segment abi w (loadOperands abi origin position args).code := by
  induction args generalizing position with
  | nil => exact Segment.nil
  | cons a args ih =>
    unfold loadOperands at h ⊢
    cases hi : argumentRegister abi position >>= (marshal origin · a) with
    | error e =>
      rw [hi] at h
      cases h
    | ok i =>
      rw [hi] at h
      obtain ⟨-, hrest, hcode⟩ := Sequence.andThen_outcome h
      obtain ⟨r, hr, hi⟩ := bind_eq_ok.1 hi
      obtain ⟨hfits, hquiet⟩ :=
        fits_marshal (named_of_argumentRegister hr) (hargs a List.mem_cons_self) hi
      simp only
      rw [hcode]
      exact (Segment.single hfits hquiet).append
        (ih hrest fun a ha => hargs a (List.mem_cons_of_mem _ ha))

theorem segment_loadArguments {callee : String} {args : List Argument}
    (h : (loadArguments abi env callee args origin).outcome = .ok ()) (henv : w.Has env)
    (hquad : env.size = .quad) (hargs : ∀ a ∈ args, a.Known w) :
    Segment abi w (loadArguments abi env callee args origin).code := by
  unfold loadArguments at h ⊢
  split at h
  · cases h
  · next hcount =>
    rw [if_neg hcount]
    split at h
    · next r hr =>
      obtain ⟨-, hrest, hcode⟩ := Sequence.andThen_outcome h
      rw [hcode]
      refine Segment.append ?_ (segment_loadOperands hrest hargs)
      exact Segment.single
        (.pass ⟨henv, Nat.le_of_eq (by rw [hquad])⟩ (named_of_argumentRegister hr)) ⟨rfl, rfl⟩
    · cases h

/-- Behind a call the register of the result is ready. -/
theorem admitted_takeResult {i : Instr} (hcall : i.isCall = true) (ready : Pseudo.Ready)
    (habi : abi ∈ Abi.all) (result : Option Reg) :
    Pseudo.Admitted abi (ready.after abi i) (takeResult abi result) := by
  have hrax : Machine.State.survives abi .rax = false := by
    simp only [Abi.all, List.mem_cons, List.not_mem_nil, or_false] at habi
    rcases habi with rfl | rfl | rfl <;> rfl
  cases result with
  | none => trivial
  | some p =>
    refine ⟨⟨fun r s hr => ?_, nofun⟩, trivial⟩
    obtain ⟨rfl, rfl⟩ : r = .rax ∧ s = p.size := by
      simpa [takeResult, Instr.mov, Instr.fixedReads, Pseudo.Operand.fixedReads,
        Machine.AluOp.readsDestination, Pseudo.Operand.baseReads, Abi.returnRegister] using hr
    refine ⟨.quad, ?_, p.size.bytes_le⟩
    cases i with
    | call symbol | callIndirect base disp => simp [Pseudo.Ready.after, hrax]
    | _ => cases hcall

theorem fits_takeResult {result : Option Reg} (hresult : ∀ p, result = some p → w.Has p) :
    ∀ i ∈ takeResult abi result, i.Fits abi w.Has := by
  intro i hi
  cases result with
  | none => exact absurd hi List.not_mem_nil
  | some p =>
    rw [takeResult, List.mem_singleton] at hi
    subst hi
    exact .receive (.inr (.inl rfl)) (hresult p rfl)

/-- Calling through the table of services. -/
theorem segment_invoke {svc : Service} {result : Option Reg} (habi : abi ∈ Abi.all)
    (henv : w.Has env) (hquad : env.size = .quad) (hresult : ∀ p, result = some p → w.Has p) :
    Segment abi w (invoke abi env svc ++ takeResult abi result) := by
  have hcalled : ∀ ready : Pseudo.Ready, Pseudo.Admitted abi
      (ready.after abi (.callIndirect Machine.addressScratch svc.offset))
        (takeResult abi result) :=
    fun ready => admitted_takeResult rfl ready habi result
  have htable : Instr.Fits abi w.Has
      (.mov .quad (.indirect env 0) (.fixed Machine.addressScratch)) :=
      .fetchAddress henv hquad
  have hcount : Instr.Fits abi w.Has (.mov .long (.imm 0) (.fixed .rax)) :=
    .pass trivial (.inr (.inl rfl))
  constructor
  · intro i hi
    rcases List.mem_append.1 hi with hi | hi
    · unfold invoke at hi
      split at hi <;> simp only [List.cons_append, List.nil_append, List.append_nil,
        List.mem_cons, List.not_mem_nil, or_false] at hi
      · rcases hi with rfl | rfl | rfl
        · exact htable
        · exact hcount
        · exact .callIndirect
      · rcases hi with rfl | rfl
        · exact htable
        · exact .callIndirect
    · exact fits_takeResult hresult i hi
  · -- the address of the table is ready when it is called through
    unfold invoke
    split <;> simp only [List.cons_append, List.nil_append, List.append_nil]
    · refine ⟨⟨nofun, nofun⟩, ⟨nofun, nofun⟩, ⟨fun r s hr => ?_, nofun⟩, hcalled _⟩
      obtain ⟨rfl, rfl⟩ : r = Machine.addressScratch ∧ s = .quad := by
        simpa [Instr.fixedReads] using hr
      exact ⟨.quad, rfl, Nat.le_refl _⟩
    · refine ⟨⟨nofun, nofun⟩, ⟨fun r s hr => ?_, nofun⟩, hcalled _⟩
      obtain ⟨rfl, rfl⟩ : r = Machine.addressScratch ∧ s = .quad := by
        simpa [Instr.fixedReads] using hr
      exact ⟨.quad, rfl, Nat.le_refl _⟩

theorem segment_serviceCall {svc : Service} {args : List Argument} {result : Option Reg}
    (habi : abi ∈ Abi.all) (h : (serviceCall abi env svc args result origin).outcome = .ok ())
    (henv : w.Has env) (hquad : env.size = .quad) (hargs : ∀ a ∈ args, a.Known w)
    (hresult : ∀ p, result = some p → w.Has p) :
    Segment abi w (serviceCall abi env svc args result origin).code := by
  obtain ⟨hload, -, hcode⟩ := Sequence.andThen_outcome h
  unfold serviceCall
  rw [hcode]
  refine (segment_loadArguments hload henv hquad hargs).append
    (segment_invoke habi henv hquad fun p hp => ?_)
  split at hp
  · exact hresult p hp
  · cases hp

theorem segment_directCall {symbol : String} {args : List Argument} {result : Option Reg}
    (habi : abi ∈ Abi.all)
    (h : (directCall abi env symbol args result origin).outcome = .ok ()) (henv : w.Has env)
    (hquad : env.size = .quad) (hargs : ∀ a ∈ args, a.Known w)
    (hresult : ∀ p, result = some p → w.Has p) :
    Segment abi w (directCall abi env symbol args result origin).code := by
  obtain ⟨hload, -, hcode⟩ := Sequence.andThen_outcome h
  unfold directCall
  rw [hcode]
  refine (segment_loadArguments hload henv hquad hargs).append ⟨fun i hi => ?_,
    ⟨nofun, nofun⟩, ?_⟩
  · rcases List.mem_cons.1 hi with rfl | hi
    · exact .call
    · exact fits_takeResult hresult i hi
  · exact admitted_takeResult rfl _ habi result

end Jil.Native

namespace Jil.Selection

open Jil.Machine (Abi AluOp Condition ShiftOp Size)
open Jil.Pseudo (Admitted Instr Named Operand Ready Reg bind_eq_ok ite_eq_ok)

variable {scope : Scope} {locals : Table String Ty} {st after : State} {w : Supply}
  {origin : Origin} {code : List Instr}

/-! ## Services -/

theorem Supply.has_draw_of_eq {st : State} (h : w.drawn = st.drawn) (size : Size) :
    (w.draw size).Has ⟨st.drawn + 1, size⟩ := by
  rw [← h]
  exact w.has_draw size

theorem Supply.drawn_draw {st : State} (h : w.drawn = st.drawn) (size : Size) :
    (w.draw size).drawn = st.drawn + 1 := by
  rw [← h]
  rfl

section Calling

variable (habi : scope.abi ∈ Abi.all) (hlaid : Arranged scope locals st w)

include habi hlaid

/-- Calling a service. -/
theorem emits_service {svc : Native.Service} {args : List Native.Argument}
    {result : Option Reg} (h : Yields scope (service svc args result origin) st code after)
    (hargs : ∀ a ∈ args, a.Known w) (hresult : ∀ p, result = some p → w.Has p) :
    Emits scope.abi w st code w after := by
  obtain ⟨hok, rfl, rfl⟩ := yields_service h
  exact .of_segment
    (Native.segment_serviceCall habi hok hlaid.has_environment rfl hargs hresult)
    hlaid.drawn rfl

/-- A service of which the result is drawn for it. -/
theorem emits_handle {svc : Native.Service} {args : List Native.Argument}
    {strings : Assembly.StringTable}
    (h : Yields scope (service svc args (some ⟨st.drawn + 1, .quad⟩) origin)
      { st with drawn := st.drawn + 1, strings := strings } code after)
    (hargs : ∀ a ∈ args, a.Known (w.draw .quad)) :
    Emits scope.abi w st code (w.draw .quad) after
    ∧ (w.draw .quad).Has ⟨st.drawn + 1, .quad⟩ := by
  have hgrows := w.grows_draw .quad
  have hhandle := Supply.has_draw_of_eq hlaid.drawn .quad
  have hgrown : Arranged scope locals { st with drawn := st.drawn + 1, strings := strings }
      (w.draw .quad) := hlaid.grow hgrows (Supply.drawn_draw hlaid.drawn .quad) rfl
  have hservice := emits_service habi hgrown h hargs (by rintro p ⟨⟩; exact hhandle)
  exact ⟨⟨hgrows, hservice.drawn, hservice.locals, hservice.segment⟩, hhandle⟩

/-- A handle of a class. -/
theorem emits_findClass {name : String} {handle : Reg}
    (h : Yields scope (findClass name origin) st (handle, code) after) :
    ∃ w', Emits scope.abi w st code w' after ∧ w'.Has handle := by
  obtain ⟨label, rfl, strings, hcode⟩ := yields_findClass h
  exact ⟨_, emits_handle habi hlaid hcode (by simp [Native.Argument.Known])⟩

/-- A handle of the class of an object. -/
theorem emits_findClassOf {object handle : Reg} (hobject : w.Has object)
    (h : Yields scope (findClassOf object origin) st (handle, code) after) :
    ∃ w', Emits scope.abi w st code w' after ∧ w'.Has handle := by
  obtain ⟨rfl, strings, hcode⟩ := yields_findClassOf h
  refine ⟨_, emits_handle habi hlaid hcode ?_⟩
  simpa [Native.Argument.Known] using hobject.grow (w.grows_draw .quad)

/-- An identifier of a member. -/
theorem emits_findMember {svc : Native.Service} {name descriptor : String} {handle id : Reg}
    (hhandle : w.Has handle)
    (h : Yields scope (findMember svc handle name descriptor origin) st (id, code) after) :
    ∃ w', Emits scope.abi w st code w' after ∧ w'.Has id := by
  obtain ⟨label, label', rfl, strings, hcode⟩ := yields_findMember h
  refine ⟨_, emits_handle habi hlaid hcode ?_⟩
  simpa [Native.Argument.Known] using hhandle.grow (w.grows_draw .quad)

/-! ## Members -/

/-- A member of another class. -/
theorem emits_remote {find : Select (Reg × List Instr)} {lookup svc : Native.Service}
    {name descriptor : String} {object result : Option Reg} {more : List Native.Argument}
    (h : Yields scope (remote find lookup name descriptor svc object more result origin)
      st code after)
    (hfind : ∀ {handle before mid}, Yields scope find st (handle, before) mid →
      ∃ w', Emits scope.abi w st before w' mid ∧ w'.Has handle)
    (hobject : ∀ p, object = some p → w.Has p) (hmore : ∀ a ∈ more, a.Known w)
    (hresult : ∀ p, result = some p → w.Has p) : ∃ w', Emits scope.abi w st code w' after := by
  obtain ⟨handle, before, mid, id, between, mid', last, hclass, hid, hlast, rfl⟩ :=
    yields_remote.1 h
  obtain ⟨w', hclass, hhandle⟩ := hfind hclass
  obtain ⟨w'', hmember, hid'⟩ := emits_findMember habi (hclass.arranged hlaid) hhandle hid
  have hfirst := hclass.append hmember
  refine ⟨w'', hfirst.append (emits_service habi (hfirst.arranged hlaid) hlast
    (List.forall_mem_cons.2 ⟨?_, List.forall_mem_cons.2 ⟨hid', fun a ha => ?_⟩⟩)
    fun p hp => (hresult p hp).grow hfirst.grows)⟩
  · cases object with
    | some p => exact (hobject p rfl).grow hfirst.grows
    | none => exact hhandle.grow hmember.grows
  · cases a with
    | address symbol => trivial
    | value p type => exact Supply.Has.grow (hmore _ ha) hfirst.grows

omit habi in
/-- A place in memory that is read, or of which the address is taken. -/
theorem emits_readPlace {place : Operand} {result : Register} {t : Ty} {address : Bool}
    (hplace : place.InMemory w.Has) (hresult : scope.types.get? result = some t)
    (haddress : address = true → scope.types.get? result = some .long) :
    Emits scope.abi w st [readPlace address place ⟨result.index, sizeOf t⟩] w st := by
  have hhas := hlaid.has_register hresult
  refine .of_segment (Segment.single ?_ ?_) hlaid.drawn rfl
  · cases address with
    | true =>
      rw [haddress rfl, Option.some.injEq] at hresult
      subst hresult
      exact .address hplace hhas rfl
    | false => exact .fetch (p := ⟨result.index, sizeOf t⟩) hplace hhas
  · cases place with
    | indirect base disp | rip symbol disp => cases address <;> exact ⟨rfl, rfl⟩
    | _ => exact hplace.elim

omit habi in
/-- A place in memory that is written. -/
theorem emits_writePlace {place : Operand} {src : Register} {t : Ty}
    (hplace : place.InMemory w.Has) (hsrc : scope.types.get? src = some t) :
    Emits scope.abi w st [writePlace place ⟨src.index, sizeOf t⟩] w st := by
  refine .of_segment (Segment.single (.put (hlaid.has_register hsrc) hplace) ?_)
    hlaid.drawn rfl
  cases place with
  | indirect base disp | rip symbol disp => exact ⟨rfl, rfl⟩
  | _ => exact hplace.elim

theorem emits_getStatic {owner field : String} {result : Register} {address : Bool}
    (haddress : address = true → scope.types.get? result = some .long)
    (h : Yields scope (getStatic owner field result address origin) st code after) :
    ∃ w', Emits scope.abi w st code w' after := by
  obtain ⟨t, ht, ⟨_, ⟨-, offset, -, rfl⟩, rfl, rfl⟩ | ⟨-, -, type, -, h⟩⟩ := yields_getStatic h
  · exact ⟨w, emits_readPlace hlaid trivial ht haddress⟩
  · exact emits_remote habi hlaid h (emits_findClass habi hlaid) nofun (List.forall_mem_nil _)
      (by rintro p ⟨⟩; exact hlaid.has_register ht)

theorem emits_putStatic {owner field : String} {src : Register}
    (h : Yields scope (putStatic owner field src origin) st code after) :
    ∃ w', Emits scope.abi w st code w' after := by
  obtain ⟨t, ht, ⟨_, ⟨-, offset, -, rfl⟩, rfl, rfl⟩ | ⟨-, type, -, h⟩⟩ := yields_putStatic h
  · exact ⟨w, emits_writePlace hlaid trivial ht⟩
  · exact emits_remote habi hlaid h (emits_findClass habi hlaid) nofun
      (List.forall_mem_singleton.2 (hlaid.has_register ht)) nofun

omit habi in
/-- The pseudo-register of an object. -/
theorem has_object {object : Register} {name : String}
    (h : scope.types.get? object = some (.classRef name)) : w.Has ⟨object.index, .quad⟩ :=
  hlaid.has_register h

theorem emits_getField {object : Register} {field : String} {result : Register}
    {address : Bool} (haddress : address = true → scope.types.get? result = some .long)
    (h : Yields scope (getField object field result address origin) st code after) :
    ∃ w', Emits scope.abi w st code w' after := by
  obtain ⟨owner, t, hobject, ht, hcode⟩ := yields_getField h
  have hhas := has_object hlaid hobject
  obtain ⟨_, ⟨-, offset, -, rfl⟩, rfl, rfl⟩ | ⟨-, -, type, -, h⟩ := hcode
  · exact ⟨w, emits_readPlace hlaid ⟨hhas, rfl⟩ ht haddress⟩
  · exact emits_remote habi hlaid h (emits_findClassOf habi hlaid hhas)
      (by rintro p ⟨⟩; exact hhas)
      (List.forall_mem_nil _) (by rintro p ⟨⟩; exact hlaid.has_register ht)

theorem emits_putField {object : Register} {field : String} {src : Register}
    (h : Yields scope (putField object field src origin) st code after) :
    ∃ w', Emits scope.abi w st code w' after := by
  obtain ⟨owner, t, hobject, ht, hcode⟩ := yields_putField h
  have hhas := has_object hlaid hobject
  obtain ⟨_, ⟨-, offset, -, rfl⟩, rfl, rfl⟩ | ⟨-, type, -, h⟩ := hcode
  · exact ⟨w, emits_writePlace hlaid ⟨hhas, rfl⟩ ht⟩
  · exact emits_remote habi hlaid h (emits_findClassOf habi hlaid hhas)
      (by rintro p ⟨⟩; exact hhas) (List.forall_mem_singleton.2 (hlaid.has_register ht)) nofun

/-! ## Methods -/

omit habi in
/-- Operands are registers, whatever has been drawn since the places were laid out. -/
theorem known_of_operands {args : List Register} {l : List Native.Argument}
    (h : args.mapM scope.value? = some l) : ∀ a ∈ l, a.Known w := by
  intro a ha
  obtain ⟨r, -, t, ht, rfl⟩ := exists_of_mem_operands h ha
  exact hlaid.has_register ht

omit habi in
theorem has_of_results {result : Option Register} {r : Option Reg}
    (h : scope.Results result r) :
    ∀ p, r = some p → w.Has p := by
  rintro p rfl
  cases h with
  | wanted ht => exact hlaid.has_register ht

omit habi in
theorem has_of_receives {object : Option Register} {kind : MemberKind} {r : Option Reg}
    (h : scope.Receives kind object r) : ∀ p, r = some p → w.Has p := by
  rintro p rfl
  cases h with
  | written ht => exact hlaid.has_register ht
  | own hp => exact hlaid.has (.parameter "this") hp

theorem emits_callOwn {target : ResolvedMethod} {receiver : Option Reg} {owner method : String}
    {args : List Register} {types : List Ty} {result : Option Reg}
    (h : Yields scope (callOwn target receiver owner method args types result origin)
      st code after)
    (hreceiver : ∀ p, receiver = some p → w.Has p) (hresult : ∀ p, result = some p → w.Has p) :
    ∃ w', Emits scope.abi w st code w' after := by
  obtain ⟨first, before, l, f, hfirst, hl, -, hok, rfl⟩ := yields_callOwn h
  have hfirst : ∃ w', Emits scope.abi w st before w' after ∧ w'.Has first := by
    obtain ⟨rfl, rfl, rfl⟩ | ⟨rfl, hclass⟩ := hfirst
    · exact ⟨w, .of_segment .nil hlaid.drawn rfl, hreceiver first rfl⟩
    · exact emits_findClass habi hlaid hclass
  obtain ⟨w', hfirst, hhas⟩ := hfirst
  refine ⟨w', hfirst.append (.of_segment ?_ hfirst.drawn rfl)⟩
  exact Native.segment_directCall habi hok (hlaid.has_environment.grow hfirst.grows) rfl
    (List.forall_mem_cons.2 ⟨hhas, known_of_operands (hfirst.arranged hlaid) hl⟩)
    fun p hp => (hresult p hp).grow hfirst.grows

theorem emits_callOther {target : ResolvedMethod} {receiver : Option Reg} {method : String}
    {args : List Register} {types : List Ty} {result : Option Reg}
    (h : Yields scope (callOther target receiver method args types result origin)
      st code after)
    (hreceiver : ∀ p, receiver = some p → w.Has p) (hresult : ∀ p, result = some p → w.Has p) :
    ∃ w', Emits scope.abi w st code w' after := by
  obtain ⟨l, hl, h⟩ := yields_callOther h
  exact emits_remote habi hlaid h (emits_findClass habi hlaid) hreceiver
    (known_of_operands hlaid hl)
    hresult

theorem emits_callActual {object : Option Register} {owner method : String}
    {args : List Register} {result : Option Register}
    (h : Yields scope (callActual object owner method args result origin) st code after) :
    ∃ w', Emits scope.abi w st code w' after := by
  obtain ⟨types, target, r, receiver, -, -, -, hr, hreceiver, hcode⟩ := yields_callActual h
  have hresult := has_of_results hlaid hr
  have hhas := has_of_receives hlaid hreceiver
  obtain ⟨-, h⟩ | ⟨-, h⟩ := hcode
  · exact emits_callOwn habi hlaid h hhas hresult
  · exact emits_callOther habi hlaid h hhas hresult

theorem emits_callVirtual {object : Register} {method : String} {args : List Register}
    {result : Option Register}
    (h : Yields scope (callVirtual object method args result origin) st code after) :
    ∃ w', Emits scope.abi w st code w' after := by
  obtain ⟨owner, types, target, r, l, hobject, -, -, -, hr, hl, h⟩ := yields_callVirtual h
  have hhas := has_object hlaid hobject
  exact emits_remote habi hlaid h (emits_findClassOf habi hlaid hhas)
    (by rintro p ⟨⟩; exact hhas) (known_of_operands hlaid hl) (has_of_results hlaid hr)

end Calling

end Jil.Selection
