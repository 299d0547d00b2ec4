import DmdModel.Runtime.DwarfEh.Lsda

-- Which exception is delivered when there are several in flight, and which class its handler is looked for with.

namespace Runtime.DwarfEh

open LinkedList

variable {Object Class : Type} {typeid : Object → Class} {isError : Class → Bool}
variable {m : Memory Object} {s s' : Flight Object} {lsd pad fuel : Nat} {handler : Int} {top : Addr}
variable {o : Option Object} {addrs passed rest : List Addr}

-- A stack of exceptions: every header has the address of the next one and has an exception.
structure InFlight (m : Memory Object) (top : Addr) (rest : List Addr) : Prop where
  linked    : Linked m.next (some top) (top :: rest)
  nodup     : (top :: rest).Nodup
  object    : ∀ a ∈ top :: rest, ∃ o, (m.header a).object = some o
  discarded : m.discarded = []

section

variable (typeid isError)

-- The object that is in the top header in the end.
def delivered (m : Memory Object) (lsd : Nat) : Option Object → List Addr → Option Object
  | o, []        => o
  | o, a :: rest =>
    if castError typeid isError o && !castError typeid isError (m.header a).object then o
    else if lsd ≠ (m.header a).languageSpecificData then o
    else delivered m lsd (m.header a).object rest

-- The object whose class is looked for.
def looked (m : Memory Object) (lsd : Nat) : Option Object → List Addr → Option Object
  | o, []        => o
  | o, a :: rest =>
    if lsd ≠ (m.header a).languageSpecificData then o
    else if !castError typeid isError o || castError typeid isError (m.header a).object then
      looked m lsd (m.header a).object rest
    else looked m lsd o rest

end

theorem getObject_eq {p : Option Addr} (h : Linked m.next p rest) (hfuel : rest.length < fuel) :
    getObject typeid isError m lsd fuel o p = some (looked typeid isError m lsd o rest) := by
  induction rest generalizing o p fuel
  case nil =>
    obtain ⟨fuel, rfl⟩ := Nat.exists_eq_add_of_lt hfuel
    cases h
    rfl
  case cons a rest ih =>
    obtain ⟨rfl, h : Linked m.next (m.header a).next rest⟩ := h
    cases fuel
    case zero => cases hfuel
    case succ fuel =>
      have hfuel := Nat.lt_of_succ_lt_succ hfuel
      rw [getObject, looked, ih h hfuel, ih h hfuel]
      split_ifs <;> rfl

theorem getClassInfo_eq (h : InFlight m top rest) (hfuel : rest.length < fuel) :
    getClassInfo typeid isError fuel m top lsd =
      (looked typeid isError m lsd (m.header top).object rest).map typeid := by
  show (getObject _ _ _ _ _ _ (m.next top)).bind _ = _
  rw [getObject_eq h.linked.2 hfuel]
  rfl

section

variable (typeid isError)

def isErrorAt (m : Memory Object) (a : Addr) : Bool :=
  castError typeid isError (m.header a).object

-- The last Error that comes next in the stack under the same data, if there is one, has the class of the one in a header.
def LastErrorMatches (m : Memory Object) (lsd : Nat) (x : Addr) (rest : List Addr) : Prop :=
  ∀ a ∈ ((rest.takeWhile fun a => lsd = (m.header a).languageSpecificData).filter (isErrorAt typeid isError m)).getLast?,
    (m.header a).object.map typeid = (m.header x).object.map typeid

-- The exceptions that are chained reach, with an Error, one that is none. If that one is under the same data, then the
-- Errors behind it have to match.
def BypassMatches (m : Memory Object) (lsd : Nat) : Addr → List Addr → Prop
  | _, []        => True
  | x, y :: rest =>
    if isErrorAt typeid isError m x && !isErrorAt typeid isError m y then
      lsd = (m.header y).languageSpecificData → LastErrorMatches typeid isError m lsd x rest
    else
      lsd = (m.header y).languageSpecificData → BypassMatches m lsd y rest

end

theorem looked_error (h : castError typeid isError o) : looked typeid isError m lsd o rest =
    ((rest.takeWhile fun a => lsd = (m.header a).languageSpecificData).filter
      (isErrorAt typeid isError m)).getLast?.elim o fun a => (m.header a).object := by
  induction rest generalizing o
  case nil => rfl
  case cons a rest ih =>
    rw [looked]
    by_cases hlsd : lsd = (m.header a).languageSpecificData
    case neg =>
      rw [if_pos hlsd, List.takeWhile_cons_of_neg (by simpa using hlsd)]
      rfl
    case pos =>
      rw [if_neg (not_not.mpr hlsd), List.takeWhile_cons_of_pos (by simpa using hlsd), h]
      cases ha : castError typeid isError (m.header a).object
      case true =>
        rw [if_pos (show (!true || true) = true from rfl), ih ha, List.filter_cons_of_pos (show isErrorAt typeid isError m a from ha),
          List.getLast?_cons]
        cases ((rest.takeWhile _).filter _).getLast? <;> rfl
      case false =>
        rw [if_neg (show ¬(!true || false) = true from Bool.false_ne_true), ih h, List.filter_cons_of_neg (by rw [isErrorAt, ha]; exact Bool.false_ne_true)]

theorem class_eq_iff {x : Addr} :
    (delivered typeid isError m lsd (m.header x).object rest).map typeid =
        (looked typeid isError m lsd (m.header x).object rest).map typeid ↔ BypassMatches typeid isError m lsd x rest := by
  induction rest generalizing x
  case nil => exact iff_of_true rfl trivial
  case cons y rest ih =>
    rw [delivered, looked, BypassMatches, isErrorAt, isErrorAt]
    by_cases hlsd : lsd = (m.header y).languageSpecificData
    case neg =>
      rw [if_pos hlsd, if_pos hlsd, ite_self]
      refine iff_of_true rfl ?_
      split <;> exact fun h => (hlsd h).elim
    case pos =>
      rw [if_neg (not_not.mpr hlsd), if_neg (not_not.mpr hlsd)]
      by_cases hpass : (castError typeid isError (m.header x).object && !castError typeid isError (m.header y).object) = true
      case pos =>
        obtain ⟨hx, hy⟩ := (Bool.and_eq_true ..).mp hpass
        rw [Bool.not_eq_true'] at hy
        rw [if_pos hpass, if_pos hpass, hx, hy, if_neg (show ¬(!true || false) = true from Bool.false_ne_true),
          looked_error hx, LastErrorMatches]
        cases ((rest.takeWhile _).filter _).getLast?
        case none   => exact iff_of_true rfl fun _ _ ha => Option.noConfusion rfl (heq_of_eq ha)
        case some a =>
          refine ⟨fun h _ b hb => ?_, fun h => (h hlsd a rfl).symm⟩
          rw [← Option.some.inj hb]
          exact h.symm
      case neg =>
        have hgo : (!castError typeid isError (m.header x).object || castError typeid isError (m.header y).object) = true := by
          simpa [Bool.or_eq_true, imp_iff_not_or] using hpass
        rw [if_neg hpass, if_neg hpass, if_pos hgo, ih]
        exact ⟨fun h _ => h, fun h => h hlsd⟩

-- What is kept by a walk over the stack, of which some headers have been passed by.
structure Walk (typeid : Object → Class) (isError : Class → Bool) (lsd : Nat) (m : Memory Object) (top : Addr)
    (addrs : List Addr) (s : Flight Object) (passed rest : List Addr) : Prop where
  linked    : Linked s.memory.next (some top) (passed ++ s.eh :: rest)
  nodup     : (passed ++ s.eh :: rest ++ s.memory.discarded).Nodup
  subset    : ∀ a ∈ passed ++ s.eh :: rest ++ s.memory.discarded, a ∈ addrs
  object    : ∀ a ∈ passed ++ s.eh :: rest, ∃ o, (s.memory.header a).object = some o
  same      : ∀ a ∈ rest, s.memory.header a = m.header a
  kept      : ∀ a ∈ addrs, ∀ o, (m.header a).object = some o →
    ∃ a' ∈ passed ++ s.eh :: rest, ∃ o', (s.memory.header a').object = some o' ∧
      Relation.ReflTransGen (fun o o' => (o, o') ∈ s.memory.chain) o' o
  bypassed  : s.bypassed = true → ∃ passed', passed = top :: passed' ∧
    castError typeid isError (s.memory.header top).object ∧
    (s.memory.header top).object = delivered typeid isError m lsd (m.header top).object addrs.tail
  first     : s.bypassed = false → passed = [] ∧ s.currentLsd = lsd ∧
    delivered typeid isError m lsd (s.memory.header s.eh).object rest =
      delivered typeid isError m lsd (m.header top).object addrs.tail

theorem Walk.start (h : InFlight m top rest) :
    Walk typeid isError lsd m top (top :: rest)
      { memory := m, eh := top, currentLsd := lsd, bypassed := false, handler } [] rest where
  linked := h.linked
  nodup := by
    rw [h.discarded, List.append_nil]
    exact h.nodup
  subset := by
    rw [h.discarded, List.append_nil]
    exact fun _ ha => ha
  object := h.object
  same := fun _ _ => rfl
  kept := fun a ha o ho => ⟨a, ha, o, ho, .refl⟩
  bypassed := fun h => Bool.noConfusion h
  first := fun _ => ⟨rfl, rfl, rfl⟩

-- An Error passes by an exception that is none.
theorem Walk.pass {b : Addr} (h : Walk typeid isError lsd m top addrs s passed (b :: rest))
    (he : castError typeid isError (s.memory.header s.eh).object)
    (hn : ¬castError typeid isError (s.memory.header b).object) :
    Walk typeid isError lsd m top addrs
      { s with currentLsd := (s.memory.header b).languageSpecificData, eh := b, bypassed := true }
      (passed ++ [s.eh]) rest := by
  have hlist : passed ++ [s.eh] ++ b :: rest = passed ++ s.eh :: b :: rest := List.append_cons .. |>.symm
  constructor
  case linked => exact hlist ▸ h.linked
  case nodup  => exact hlist ▸ h.nodup
  case subset => exact hlist ▸ h.subset
  case object => exact hlist ▸ h.object
  case same   => exact fun a ha => h.same a (List.mem_cons_of_mem b ha)
  case kept   => exact hlist ▸ h.kept
  case first  => exact fun h => Bool.noConfusion h
  case bypassed =>
    intro _
    cases hb : s.bypassed
    case false =>
      obtain ⟨hpassed, -, hdelivered⟩ := h.first hb
      have htop : s.eh = top := by
        have hlinked := h.linked
        rw [hpassed] at hlinked
        exact (Option.some.inj hlinked.1).symm
      refine ⟨[], ?_, ?_, ?_⟩
      · rw [hpassed, htop]
        rfl
      · rwa [← htop]
      · rw [← hdelivered, delivered, ← h.same b List.mem_cons_self, if_pos (by simp only [he, hn]; rfl), htop]
    case true =>
      obtain ⟨passed', hpassed, htop, hdelivered⟩ := h.bypassed hb
      exact ⟨passed' ++ [s.eh], by rw [hpassed]; rfl, htop, hdelivered⟩

-- What a turn of the loop does that chains the exception in flight to the one of the next header.
structure Chained (s s' : Flight Object) (b : Addr) : Prop where
  eh         : s'.eh = s.eh
  currentLsd : s'.currentLsd = s.currentLsd
  bypassed   : s'.bypassed = s.bypassed
  object     : (s'.memory.header s.eh).object = (s.memory.header b).object
  next       : s'.memory.next s.eh = s.memory.next b
  other      : ∀ a, a ≠ s.eh → a ≠ b → s'.memory.header a = s.memory.header a
  chain      : ∀ p, p ∈ s'.memory.chain ↔ p ∈ s.memory.chain ∨
    (s.memory.header b).object = some p.1 ∧ (s.memory.header s.eh).object = some p.2
  discarded  : s'.memory.discarded = b :: s.memory.discarded

theorem Walk.chain {b : Addr} (h : Walk typeid isError lsd m top addrs s passed (b :: rest)) (hc : Chained s s' b)
    (hlsd : s.currentLsd = (s.memory.header b).languageSpecificData)
    (hn : castError typeid isError (s.memory.header s.eh).object → castError typeid isError (s.memory.header b).object) :
    Walk typeid isError lsd m top addrs s' passed rest := by
  have hperm : (passed ++ s.eh :: rest ++ s'.memory.discarded).Perm (passed ++ s.eh :: b :: rest ++ s.memory.discarded) := by
    rw [hc.discarded, List.append_assoc, List.append_assoc, List.cons_append, List.cons_append, List.cons_append]
    exact (List.perm_middle.cons _).append_left _
  have hnodup := List.nodup_append.mp h.nodup |>.1
  have hmid : (s.eh :: b :: (passed ++ rest)).Nodup :=
    (List.perm_middle.trans (List.perm_middle.cons _)).nodup_iff.mp hnodup
  obtain ⟨heh, hmid⟩ := List.nodup_cons.mp hmid
  obtain ⟨hb, -⟩ := List.nodup_cons.mp hmid
  have hother (a : Addr) (ha : a ∈ passed ++ rest) : s'.memory.header a = s.memory.header a :=
    hc.other a (fun he => heh (List.mem_cons_of_mem b (he ▸ ha))) (fun he => hb (he ▸ ha))
  have hmem {a : Addr} : a ∈ passed ++ s.eh :: rest ↔ a = s.eh ∨ a ∈ passed ++ rest := by
    rw [List.perm_middle.mem_iff, List.mem_cons]
  have hmem' {a : Addr} : a ∈ passed ++ s.eh :: b :: rest ↔ a = s.eh ∨ a = b ∨ a ∈ passed ++ rest := by
    rw [(List.perm_middle.trans (List.perm_middle.cons _)).mem_iff, List.mem_cons, List.mem_cons]
  obtain ⟨ob, hob⟩ := h.object b (hmem'.mpr (.inr (.inl rfl)))
  constructor
  case linked =>
    rw [hc.eh]
    exact h.linked.unlink hnodup hc.next fun z hz => congrArg ExceptionHeader.next (hother z hz)
  case nodup =>
    rw [hc.eh]
    exact hperm.nodup_iff.mpr h.nodup
  case subset =>
    rw [hc.eh]
    exact fun a ha => h.subset a (hperm.mem_iff.mp ha)
  case object =>
    rw [hc.eh]
    intro a ha
    obtain rfl | ha := hmem.mp ha
    · exact ⟨ob, hc.object.trans hob⟩
    · rw [hother a ha]
      exact h.object a (hmem'.mpr (.inr (.inr ha)))
  case same =>
    exact fun a ha => (hother a (List.mem_append_right passed ha)).trans (h.same a (List.mem_cons_of_mem b ha))
  case kept =>
    rw [hc.eh]
    intro a ha o ho
    obtain ⟨a', ha', o', ho', hpath⟩ := h.kept a ha o ho
    have hpath := Relation.ReflTransGen.mono (fun o o' hchain => (hc.chain (o, o')).mpr (.inl hchain)) _ _ hpath
    obtain rfl | rfl | ha' := hmem'.mp ha'
    · -- what was in flight is chained to what the next header had
      exact ⟨s.eh, hmem.mpr (.inl rfl), ob, hc.object.trans hob, .head ((hc.chain (ob, o')).mpr (.inr ⟨hob, ho'⟩)) hpath⟩
    · exact ⟨s.eh, hmem.mpr (.inl rfl), o', hc.object.trans ho', hpath⟩
    · exact ⟨a', hmem.mpr (.inr ha'), o', by rw [hother a' ha', ho'], hpath⟩
  case bypassed =>
    intro hbypassed
    obtain ⟨passed', hpassed, htop, hdelivered⟩ := h.bypassed (hc.bypassed ▸ hbypassed)
    have hsame := hother top (by rw [hpassed]; exact List.mem_cons_self)
    exact ⟨passed', hpassed, by rwa [hsame], by rwa [hsame]⟩
  case first =>
    intro hbypassed
    obtain ⟨hpassed, hcurrent, hdelivered⟩ := h.first (hc.bypassed ▸ hbypassed)
    refine ⟨hpassed, hc.currentLsd.trans hcurrent, ?_⟩
    have hfirst : ¬(castError typeid isError (s.memory.header s.eh).object &&
        !castError typeid isError (s.memory.header b).object) = true := by
      simpa using hn
    rw [← hdelivered, delivered, ← h.same b List.mem_cons_self, if_neg hfirst,
      if_neg (fun hne => hne (hcurrent.symm.trans hlsd)), hc.eh, hc.object]

-- The header is replaced by another one that has the next object and the next link.
theorem chained_update {b : Addr} {ob oe : Object} {eh : ExceptionHeader Object} (hne : b ≠ s.eh)
    (hob : (s.memory.header b).object = some ob) (hoe : (s.memory.header s.eh).object = some oe)
    (hobject : eh.object = some ob) (hnext : eh.next = s.memory.next b) :
    Chained s { s with
      memory := ({ s.memory with chain := (ob, oe) :: s.memory.chain }.update s.eh eh).delete b, handler } b where
  eh := rfl
  currentLsd := rfl
  bypassed := rfl
  object := by simp [Memory.delete, Memory.update, Function.update_of_ne hne.symm, hobject, hob]
  next := by simp [Memory.delete, Memory.update, Memory.next, Function.update_of_ne hne.symm, hnext]
  other := fun a he hb => by simp [Memory.delete, Memory.update, he, hb]
  chain := fun p => by
    simp only [Memory.delete, Memory.update, List.mem_cons, hob, hoe, Option.some.injEq, Prod.ext_iff]
    constructor
    case mp  => exact fun h => h.elim (fun h => .inr ⟨h.1.symm, h.2.symm⟩) .inl
    case mpr => exact fun h => h.elim .inr (fun h => .inl ⟨h.1.symm, h.2.symm⟩)
  discarded := rfl

-- A turn of the loop goes on with a shorter rest of the stack.
theorem Walk.step (h : Walk typeid isError lsd m top addrs s passed rest)
    (hs : Runtime.DwarfEh.step typeid isError lsd pad s = some s') :
    ∃ passed' rest', Walk typeid isError lsd m top addrs s' passed' rest' ∧ rest'.length < rest.length := by
  have hnext : (s.memory.header s.eh).next = rest.head? := h.linked.next_eq
  rw [Runtime.DwarfEh.step] at hs
  cases rest
  case nil =>
    rw [hnext] at hs
    cases hs
  case cons b rest =>
    dsimp only at hs
    rw [hnext] at hs
    dsimp only [List.head?_cons] at hs
    split at hs
    case isTrue hpass =>
      rw [Bool.and_eq_true, Bool.not_eq_true'] at hpass
      obtain rfl := Option.some.inj hs
      exact ⟨_, rest, h.pass hpass.1 (by rw [hpass.2]; exact Bool.false_ne_true), Nat.lt_succ_self _⟩
    case isFalse hpass =>
      split at hs
      case isTrue => cases hs
      case isFalse hlsd =>
        obtain rfl := Option.some.inj hs
        refine ⟨passed, rest, h.chain (b := b) ?_ (not_not.mp hlsd) ?_, Nat.lt_succ_self _⟩
        · have hnodup := List.nodup_append.mp h.nodup |>.1
          have hne : b ≠ s.eh := fun he => (List.nodup_cons.mp (List.nodup_append.mp hnodup).2.1).1 (he ▸ List.mem_cons_self)
          obtain ⟨ob, hob⟩ := h.object b (by simp)
          obtain ⟨oe, hoe⟩ := h.object s.eh (by simp)
          simp only [hob, hoe, Memory.chainTogether]
          refine chained_update hne hob hoe ?_ ?_
          · split <;> rfl
          · split <;> rfl
        · simpa using hpass

theorem loop_walk (h : Walk typeid isError lsd m top addrs s passed rest)
    (hs : loop typeid isError lsd pad fuel s = some s') :
    ∃ passed' rest', Walk typeid isError lsd m top addrs s' passed' rest' ∧
      Runtime.DwarfEh.step typeid isError lsd pad s' = none := by
  induction fuel generalizing s passed rest
  case zero => cases hs
  case succ fuel ih =>
    rw [loop] at hs
    cases hstep : Runtime.DwarfEh.step typeid isError lsd pad s
    case none =>
      rw [hstep] at hs
      obtain rfl := Option.some.inj hs
      exact ⟨passed, rest, h, hstep⟩
    case some next =>
      rw [hstep] at hs
      obtain ⟨passed', rest', hnext, -⟩ := h.step hstep
      exact ih hnext hs

-- Each header of the rest of the stack is seen once.
theorem loop_ends (h : Walk typeid isError lsd m top addrs s passed rest) (hfuel : rest.length < fuel) :
    ∃ s', loop typeid isError lsd pad fuel s = some s' := by
  induction fuel generalizing s passed rest
  case zero => cases hfuel
  case succ fuel ih =>
    rw [loop]
    cases hstep : Runtime.DwarfEh.step typeid isError lsd pad s
    case none => exact ⟨s, rfl⟩
    case some next =>
      obtain ⟨passed', rest', hnext, hlt⟩ := h.step hstep
      exact ih hnext (by omega)

theorem Walk.delivered_eq (h : Walk typeid isError lsd m top addrs s passed rest)
    (hs : Runtime.DwarfEh.step typeid isError lsd pad s = none) :
    (s.memory.header top).object = delivered typeid isError m lsd (m.header top).object addrs.tail := by
  cases hb : s.bypassed
  case true =>
    obtain ⟨-, -, -, hdelivered⟩ := h.bypassed hb
    exact hdelivered
  case false =>
    obtain ⟨hpassed, hcurrent, hdelivered⟩ := h.first hb
    have htop : s.eh = top := by
      have hlinked := h.linked
      rw [hpassed] at hlinked
      exact (Option.some.inj hlinked.1).symm
    have hnext : (s.memory.header s.eh).next = rest.head? := h.linked.next_eq
    rw [← hdelivered, ← htop]
    cases rest
    case nil => rfl
    case cons b rest =>
      rw [Runtime.DwarfEh.step] at hs
      dsimp only at hs
      rw [hnext] at hs
      dsimp only [List.head?_cons] at hs
      rw [delivered, ← h.same b List.mem_cons_self, ← hcurrent]
      split at hs
      case isTrue => cases hs
      case isFalse hpass =>
        rw [if_neg hpass]
        split at hs
        case isTrue hlsd => rw [if_pos hlsd]
        case isFalse     => cases hs

-- One object is chained to another one, or was bypassed by it.
def Keeps (m : Memory Object) (o o' : Object) : Prop :=
  (o, o') ∈ m.chain ∨ m.bypassedException o = some o'

-- No header is discarded twice, and every exception is in a header of the stack that is left or is kept by one that is.
structure Settled (m m' : Memory Object) (top : Addr) (rest : List Addr) : Prop where
  nodup  : m'.discarded.Nodup
  subset : ∀ a ∈ m'.discarded, a ∈ rest
  kept   : ∃ rest', Linked m'.next (some top) (top :: rest') ∧
    ∀ a ∈ top :: rest, ∀ o, (m.header a).object = some o →
      ∃ a' ∈ top :: rest', ∃ o', (m'.header a').object = some o' ∧ Relation.ReflTransGen (Keeps m') o' o

theorem Walk.settled (h : Walk typeid isError lsd m top (top :: rest) s [] addrs) (htop : s.eh = top) :
    Settled m s.memory top rest := by
  have hlinked := h.linked
  have hnodup := h.nodup
  have hsubset := h.subset
  have hkept := h.kept
  rw [htop, List.nil_append] at hlinked hnodup hsubset hkept
  refine ⟨(List.nodup_append.mp hnodup).2.1, fun a ha => ?_, addrs, hlinked, fun a ha o ho => ?_⟩
  · have hmem := hsubset a (List.mem_append_right _ ha)
    refine (List.mem_cons.mp hmem).resolve_left ?_
    rintro rfl
    exact (List.nodup_append.mp hnodup).2.2 a List.mem_cons_self a ha rfl
  · obtain ⟨a', ha', o', ho', hpath⟩ := hkept a ha o ho
    exact ⟨a', ha', o', ho', Relation.ReflTransGen.mono (fun _ _ => .inl) _ _ hpath⟩

variable [DecidableEq Object]

-- An Error in the top header takes the exception behind it over.
theorem Walk.settled_bypass {passed' : List Addr}
    (h : Walk typeid isError lsd m top (top :: rest) s (top :: passed') addrs)
    (he : castError typeid isError (s.memory.header top).object) :
    ∃ m', bypass typeid isError s.memory top = some m' ∧ (m'.header top).object = (s.memory.header top).object ∧
      Settled m m' top rest := by
  obtain ⟨c, left, hleft⟩ : ∃ c left, passed' ++ s.eh :: addrs = c :: left := by
    cases passed'
    case nil       => exact ⟨s.eh, addrs, rfl⟩
    case cons c cs => exact ⟨c, cs ++ s.eh :: addrs, rfl⟩
  have hlinked := h.linked
  have hnodup := h.nodup
  have hsubset := h.subset
  have hkept := h.kept
  rw [List.cons_append, hleft] at hlinked hnodup hsubset hkept
  obtain ⟨e, hobject⟩ := h.object top (by simp)
  obtain ⟨oc, hoc⟩ := h.object c (by rw [List.cons_append, hleft]; simp)
  have hnext : (s.memory.header top).next = some c := hlinked.2.1
  have hne : c ≠ top := fun heq => (List.nodup_cons.mp hnodup).1 (heq ▸ List.mem_cons_self)
  obtain ⟨hcells, hdiscarded, hdisjoint⟩ := List.nodup_append.mp hnodup
  obtain ⟨htopcells, hccells⟩ := List.nodup_cons.mp hcells
  have hother (a : Addr) (ha : a ∈ left) : a ≠ top ∧ a ≠ c := by
    refine ⟨?_, ?_⟩ <;> rintro rfl
    · exact htopcells (List.mem_cons_of_mem c ha)
    · exact (List.nodup_cons.mp hccells).1 ha
  rw [hobject] at he
  have hresult : bypass typeid isError s.memory top = some
      (((s.memory.setBypassedException e (s.memory.header c).object).update top
        { s.memory.header top with next := (s.memory.header c).next }).delete c) := by
    have hfilter : (some e).filter (isError <| typeid ·) = some e := if_pos he
    rw [bypass, hobject, hfilter]
    show (s.memory.header top).next.bind _ = _
    rw [hnext, ← hobject]
    rfl
  refine ⟨_, hresult, ?_, ?_⟩
  · simp [Memory.delete, Memory.update, Memory.setBypassedException, Function.update_of_ne hne.symm]
  · generalize hm : Memory.delete _ c = m'
    have htopheader : m'.header top = { s.memory.header top with next := (s.memory.header c).next } := by
      rw [← hm]
      simp [Memory.delete, Memory.update, Function.update_of_ne hne.symm]
    have hheader (a : Addr) (ha : a ∈ left) : m'.header a = s.memory.header a := by
      rw [← hm]
      simp [Memory.delete, Memory.update, Memory.setBypassedException, hother a ha]
    have hchain : m'.chain = s.memory.chain := hm ▸ rfl
    have hkeeps : Keeps m' e oc := by
      refine .inr ?_
      rw [← hm, ← hoc]
      exact Function.update_self ..
    have hdiscard : m'.discarded = c :: s.memory.discarded := hm ▸ rfl
    constructor
    case nodup =>
      rw [hdiscard, List.nodup_cons]
      exact ⟨fun hc => hdisjoint c (by simp) c hc rfl, hdiscarded⟩
    case subset =>
      rw [hdiscard]
      intro a ha
      have hmem : a ∈ top :: rest := by
        obtain rfl | ha := List.mem_cons.mp ha
        · exact hsubset a (by simp)
        · exact hsubset a (List.mem_append_right _ ha)
      refine (List.mem_cons.mp hmem).resolve_left ?_
      rintro rfl
      obtain heq | ha := List.mem_cons.mp ha
      · exact hne heq.symm
      · exact hdisjoint a List.mem_cons_self a ha rfl
    case kept =>
      refine ⟨left, ?_, fun a ha o ho => ?_⟩
      · have hunlink : Linked m'.next (some top) ([] ++ top :: left) := by
          refine Linked.unlink (y := c) hlinked hcells ?_ fun z hz => ?_
          · show (m'.header top).next = _
            rw [htopheader]
            rfl
          · exact congrArg ExceptionHeader.next (hheader z hz)
        exact hunlink
      · obtain ⟨a', ha', o', ho', hpath⟩ := hkept a ha o ho
        have hpath : Relation.ReflTransGen (Keeps m') o' o := by
          refine Relation.ReflTransGen.mono (fun o o' hp => .inl ?_) _ _ hpath
          rwa [hchain]
        obtain rfl | rfl | ha' : a' = top ∨ a' = c ∨ a' ∈ left := by simpa using ha'
        · exact ⟨a', List.mem_cons_self, o', by rw [htopheader]; exact ho', hpath⟩
        · -- what was bypassed is recorded in the Error
          obtain rfl : oc = o' := Option.some.inj (hoc.symm.trans ho')
          exact ⟨top, List.mem_cons_self, e, by rw [htopheader]; exact hobject, .head hkeeps hpath⟩
        · exact ⟨a', List.mem_cons_of_mem top ha', o', by rw [hheader a' ha', ho'], hpath⟩

-- The loop ends, with each header seen once, and the class that handlers were looked for with is that of the exception
-- they get.
def Agrees (typeid : Object → Class) (isError : Class → Bool) (m : Memory Object) (lsd pad fuel : Nat) (handler : Int)
    (top : Addr) (rest : List Addr) : Prop :=
  ∃ m' handler', inFlight typeid isError lsd pad fuel handler m top = some (m', handler') ∧ Settled m m' top rest ∧
    getClassInfo typeid isError fuel m top lsd = (m'.header top).object.map typeid

theorem inFlight_spec (h : InFlight m top rest) (hfuel : rest.length < fuel) :
    ∃ m' handler', inFlight typeid isError lsd pad fuel handler m top = some (m', handler') ∧ Settled m m' top rest ∧
      (m'.header top).object = delivered typeid isError m lsd (m.header top).object rest := by
  have hstart := @Walk.start _ _ typeid isError m lsd handler top rest h
  obtain ⟨s, hs⟩ := @loop_ends _ _ _ _ _ _ _ pad _ _ _ _ _ hstart hfuel
  obtain ⟨passed, left, hwalk, hstep⟩ := loop_walk hstart hs
  have hobject := hwalk.delivered_eq hstep
  have hrun : inFlight typeid isError lsd pad fuel handler m top =
      (if s.bypassed then bypass typeid isError s.memory top else some s.memory).map fun m => (m, s.handler) := by
    rw [inFlight, hs]
    cases hb : s.bypassed <;> simp only [Option.bind_eq_bind, Option.bind_some, hb, Option.map_eq_bind] <;> rfl
  rw [hrun]
  cases hb : s.bypassed
  case false =>
    obtain ⟨rfl, -⟩ := hwalk.first hb
    have htop : s.eh = top := (Option.some.inj hwalk.linked.1).symm
    exact ⟨s.memory, s.handler, rfl, hwalk.settled htop, hobject⟩
  case true =>
    obtain ⟨passed', rfl, he, -⟩ := hwalk.bypassed hb
    obtain ⟨m', hm', hsame, hsettled⟩ := hwalk.settled_bypass he
    exact ⟨m', s.handler, by rw [if_pos rfl, hm']; rfl, hsettled, hsame.trans hobject⟩

-- Handlers get an exception of the class they were looked for with if and only if the Errors behind the first bypass
-- have the class of the one that bypasses.
theorem handlers_agree_iff (h : InFlight m top rest) (hfuel : rest.length < fuel) :
    Agrees typeid isError m lsd pad fuel handler top rest ↔ BypassMatches typeid isError m lsd top rest := by
  obtain ⟨m', handler', hrun, hsettled, hobject⟩ := @inFlight_spec _ _ typeid isError m lsd pad fuel handler top rest _ h hfuel
  rw [← class_eq_iff, Agrees, getClassInfo_eq h hfuel]
  constructor
  case mp =>
    intro ⟨m'', handler'', hrun', _, hclass⟩
    obtain ⟨rfl, -⟩ := Prod.mk.inj (Option.some.inj (hrun.symm.trans hrun'))
    rw [hclass, hobject]
  case mpr => exact fun hclass => ⟨m', handler', hrun, hsettled, by rw [hobject, hclass]⟩

-- An Error of class 0, an exception of class 1 that is none, and an Error of class 2.
def thrown : Memory Nat where
  header
    | 0 => { object := some 0, next := some 1 }
    | 1 => { object := some 1, languageSpecificData := 1, next := some 2 }
    | 2 => { object := some 2, languageSpecificData := 1 }
    | _ => {}
  chain := []
  bypassedException := fun _ => none
  discarded := []

theorem thrown_inFlight : InFlight thrown 0 [1, 2] where
  linked := ⟨rfl, rfl, rfl, rfl⟩
  nodup := by decide
  object := by
    intro a ha
    simp only [List.mem_cons, List.not_mem_nil, or_false] at ha
    obtain rfl | rfl | rfl := ha <;> exact ⟨_, rfl⟩
  discarded := rfl

-- The class is that of the last Error, but the first one is delivered.
theorem thrown_disagrees :
    InFlight thrown 0 [1, 2] ∧ ¬Agrees id (fun c => c ≠ 1) thrown 1 0 3 0 0 [1, 2] := by
  refine ⟨thrown_inFlight, fun ⟨m', handler', hrun, _, hclass⟩ => ?_⟩
  have hdelivered : (inFlight id (fun c => c ≠ 1) 1 0 3 0 thrown 0).map (fun r => (r.1.header 0).object) = some (some 0) := rfl
  rw [hrun] at hdelivered
  have hobject : (m'.header 0).object = some 0 := Option.some.inj hdelivered
  rw [hobject] at hclass
  revert hclass
  decide

-- If the exception that is bypassed is under other data, then the class of the first Error is looked for.
theorem thrown_agrees : Agrees id (fun c => c ≠ 1) thrown 2 0 3 0 0 [1, 2] :=
  (handlers_agree_iff thrown_inFlight (by decide)).mpr (fun h => absurd h (by decide))

end Runtime.DwarfEh
