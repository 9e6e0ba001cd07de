import InvitationService.Lib.Respelling
import InvitationService.Lib.Solo
import InvitationService.Lifecycle.Runs
import InvitationService.Model.GuestMagicLink

namespace InvitationService

open Resumption Respelling GuestConfirmation

namespace GuestMagicLink

/-! ### What the two paths read -/

/-- What `requestPublicResend` takes an identifier for: an address, or else a number. -/
def resendIdentifier (cfg : Config) (raw : String) : Option NormalizedIdentifier :=
  match normalizeEmail cfg raw with
  | some email => some ⟨.email, email⟩
  | none => (normalizePhone raw).map fun phone => ⟨.whatsapp, phone⟩

def contactFilter (cfg : Config) (email phone : Option String) (invitation : Invitation) : Bool :=
  match email with
  | some _ => invitation.email.map (fun e => cfg.toLowerCase (trim e)) = email
  | none =>
    (invitation.phoneNumber.toList ++
        invitation.phoneNumbers.map fun ph => ph.countryCode ++ ph.number).any
      fun entry => entry ≠ "" && normalizePhone entry = phone

variable {cfg : Config} {lower : String → String} {r : Invitation} {raw s : String}
  {n : NormalizedIdentifier} {l l' : List Char} {d : String}

theorem matchesIdentity_eq (firstName lastName : String) (email phone : Option String) :
    matchesIdentity cfg firstName lastName email phone r =
      (normalizeName cfg r.firstName = firstName && normalizeName cfg r.lastName = lastName &&
        contactFilter cfg email phone r) := rfl

theorem mem_findMatches (w : World) (tenantId : TenantId) :
    ∃ found, (findMatches lower n tenantId).solo false w = (.ok found, w) ∧
      ∀ m, m ∈ found ↔ ∃ i esp, w.row i.id = some i ∧ contactCondition lower n i = true ∧
        w.db.settings i.eventId = some esp ∧ esp.tenantId = some tenantId ∧
        contactMatch i esp = m := by
  refine ⟨_, Block.solo_call, fun m => ?_⟩
  simp only [List.mem_filterMap, InvitationTable.mem_select, Option.map_eq_some_iff,
    Option.filter_eq_some_iff, decide_eq_true_eq]
  constructor
  · rintro ⟨i, ⟨hi, hcond⟩, esp, ⟨hesp, htenant⟩, hm⟩
    exact ⟨i, esp, hi, hcond, hesp, htenant, hm⟩
  · rintro ⟨i, esp, hi, hcond, hesp, htenant, hm⟩
    exact ⟨i, ⟨hi, hcond⟩, esp, ⟨hesp, htenant⟩, hm⟩

/-- What the two paths search for: a row passes by the names that were typed in and
`contactFilter`, and is found for a link by `contactCondition` within the tenant. -/
structure Searches (cfg : Config) (lower : String → String) : Prop where
  resend : ∀ firstName lastName email phone r,
    matchesIdentity cfg firstName lastName email phone r =
      (normalizeName cfg r.firstName = firstName && normalizeName cfg r.lastName = lastName &&
        contactFilter cfg email phone r)
  link : ∀ n w tenantId, ∃ found, (findMatches lower n tenantId).solo false w = (.ok found, w) ∧
    ∀ m, m ∈ found ↔ ∃ i esp, w.row i.id = some i ∧ contactCondition lower n i = true ∧
      w.db.settings i.eventId = some esp ∧ esp.tenantId = some tenantId ∧ contactMatch i esp = m

/-! ### Addresses -/

def AddressMark (c : Char) : Prop := isSpace c = true ∨ c = '@' ∨ c = '.'

/-- A conversion to lower case: whatever the context, a letter becomes one or more letters,
and the marks stay. -/
def LowerCases (lower : String → String) : Prop :=
  ∀ s, Respells AddressMark s.toList (lower s).toList

structure IsPart (l : List Char) : Prop where
  ne_nil : l ≠ []
  letters : ∀ c ∈ l, isSpace c = false ∧ c ≠ '@'

theorem mem_inner_iff {c : Char} : c ∈ (l.drop 1).dropLast ↔
    ∃ a b, l = a ++ c :: b ∧ a ≠ [] ∧ b ≠ [] := by
  constructor
  · intro h
    cases l with
    | nil => simp at h
    | cons x l =>
      rw [List.drop_one, List.tail_cons] at h
      obtain ⟨a, b, hab⟩ := List.append_of_mem h
      have hne : l ≠ [] := by
        rintro rfl
        simp at h
      refine ⟨x :: a, b ++ [l.getLast hne], ?_, by simp, by simp⟩
      have hl : l = a ++ c :: (b ++ [l.getLast hne]) := by
        rw [← List.cons_append, ← List.append_assoc, ← hab, List.dropLast_concat_getLast]
      exact congrArg (x :: ·) hl
  · rintro ⟨a, b, rfl, ha, hb⟩
    cases a with
    | nil => exact absurd rfl ha
    | cons x a => simp [List.dropLast_cons_of_ne_nil hb]

theorem isEmail_append {user domain : List Char} (huser : '@' ∉ user) :
    isEmail (user ++ '@' :: domain) = true ↔
      (∀ c ∈ user ++ domain, isSpace c = false) ∧ user ≠ [] ∧ '@' ∉ domain ∧
        '.' ∈ (domain.drop 1).dropLast := by
  have hall : ∀ c ∈ user, (decide (c ≠ '@')) = true := fun c hc => by
    simpa using fun h : c = '@' => huser (h ▸ hc)
  have hat : isSpace '@' = false := by decide
  simp only [isEmail, List.takeWhile_append_of_pos hall, List.dropWhile_append_of_pos hall]
  simp [hat, or_imp, forall_and]
  tauto

/-- The regular expression, read from left to right. -/
theorem isEmail_iff : isEmail l = true ↔ ∃ user host top,
    l = user ++ '@' :: (host ++ '.' :: top) ∧ IsPart user ∧ IsPart host ∧ IsPart top := by
  constructor
  · intro h
    have hat : '@' ∈ l := by
      simp only [isEmail, Bool.and_eq_true, decide_eq_true_eq] at h
      exact h.1.1.2
    obtain ⟨user, domain, rfl, huser⟩ := List.eq_append_cons_of_mem hat
    obtain ⟨hspace, hne, hdomain, hdot⟩ := (isEmail_append huser).1 h
    obtain ⟨host, top, rfl, hhost, htop⟩ := mem_inner_iff.1 hdot
    have hpart : ∀ m, m ≠ [] → (∀ c ∈ m, c ∈ host ++ '.' :: top) → IsPart m := fun m hm hsub =>
      ⟨hm, fun c hc => ⟨hspace c (List.mem_append_right _ (hsub c hc)),
        fun hc' => hdomain (hc' ▸ hsub c hc)⟩⟩
    refine ⟨user, host, top, rfl, ⟨hne, fun c hc => ⟨hspace c (List.mem_append_left _ hc), ?_⟩⟩,
      hpart host hhost fun c hc => by simp [hc], hpart top htop fun c hc => by simp [hc]⟩
    rintro rfl
    exact huser hc
  · rintro ⟨user, host, top, rfl, huser, hhost, htop⟩
    have hnot : ∀ m, IsPart m → '@' ∉ m := fun m hm hmem => (hm.letters _ hmem).2 rfl
    have hdot : isSpace '.' = false := by decide
    refine (isEmail_append (hnot user huser)).2 ⟨fun c hc => ?_, huser.ne_nil, ?_,
      mem_inner_iff.2 ⟨host, top, rfl, hhost.ne_nil, htop.ne_nil⟩⟩
    · simp only [List.mem_append, List.mem_cons] at hc
      rcases hc with hc | hc | rfl | hc
      · exact (huser.letters c hc).1
      · exact (hhost.letters c hc).1
      · exact hdot
      · exact (htop.letters c hc).1
    · simp [hnot host hhost, hnot top htop]

theorem IsPart.respelled (h : Respells AddressMark l l') : IsPart l' ↔ IsPart l := by
  have hiff : ∀ m : List Char, IsPart m ↔
      m ≠ [] ∧ (∀ c, isSpace c = true → c ∉ m) ∧ '@' ∉ m := fun m => by
    constructor
    · intro hm
      exact ⟨hm.ne_nil, fun c hc hmem => by simp [(hm.letters c hmem).1] at hc,
        fun hmem => (hm.letters _ hmem).2 rfl⟩
    · rintro ⟨hne, hspace, hat⟩
      refine ⟨hne, fun c hc => ⟨?_, fun hc' => hat (hc' ▸ hc)⟩⟩
      simpa using fun hs => hspace c hs hc
  rw [hiff, hiff, Ne, h.eq_nil_iff, h.mem_iff (.inr (.inl rfl))]
  refine and_congr_right fun _ => and_congr_left fun _ => forall₂_congr fun c hc => ?_
  rw [h.mem_iff (.inl hc)]

theorem isEmail_respelled (h : Respells AddressMark l l') : isEmail l' = isEmail l := by
  have hat : AddressMark '@' := .inr (.inl rfl)
  have hdot : AddressMark '.' := .inr (.inr rfl)
  rw [Bool.eq_iff_iff, isEmail_iff, isEmail_iff]
  constructor
  · rintro ⟨user', host', top', heq, huser, hhost, htop⟩
    obtain ⟨user, domain, rfl, hu, hd⟩ := h.cut_back hat heq
    obtain ⟨host, top, rfl, hh, ht⟩ := hd.cut_back hdot rfl
    exact ⟨user, host, top, rfl, (IsPart.respelled hu).1 huser, (IsPart.respelled hh).1 hhost,
      (IsPart.respelled ht).1 htop⟩
  · rintro ⟨user, host, top, heq, huser, hhost, htop⟩
    obtain ⟨user', domain', rfl, hu, hd⟩ := h.cut hat heq
    obtain ⟨host', top', rfl, hh, ht⟩ := hd.cut hdot rfl
    exact ⟨user', host', top', rfl, (IsPart.respelled hu).2 huser, (IsPart.respelled hh).2 hhost,
      (IsPart.respelled ht).2 htop⟩

theorem not_isSpace_of_isEmail (h : isEmail l = true) : ∀ c ∈ l, isSpace c = false := by
  intro c hc
  simp only [isEmail, Bool.and_eq_true] at h
  simpa using List.all_eq_true.1 h.1.1.1.1 c hc

theorem trim_eq_self (h : ∀ c ∈ s.toList, isSpace c = false) : trim s = s := by
  have hdrop : ∀ m : List Char, (∀ c ∈ m, isSpace c = false) → m.dropWhile isSpace = m := by
    intro m hm
    cases m with
    | nil => rfl
    | cons c m => simp [hm c]
  rw [trim, hdrop _ h, hdrop _ fun c hc => h c (List.mem_reverse.1 hc), List.reverse_reverse,
    String.ofList_toList]

theorem normalizeEmail_eq_some {v : String} : normalizeEmail cfg s = some v ↔
    isEmail (cfg.toLowerCase (trim s)).toList = true ∧ cfg.toLowerCase (trim s) = v := by
  simp [normalizeEmail]

/-! ### Phone numbers -/

def PhoneLength (d : String) : Prop := 8 ≤ d.toList.length ∧ d.toList.length ≤ 15

instance (d : String) : Decidable (PhoneLength d) := inferInstanceAs (Decidable (_ ∧ _))

def International (s : String) : Prop := (trim s).toList.head? = some '+'

instance (s : String) : Decidable (International s) := inferInstanceAs (Decidable (_ = _))

def phoneOf (d : String) : String := String.ofList ('+' :: d.toList)

def storedPhones (r : Invitation) : List String :=
  r.phoneNumber.toList ++ r.phoneNumbers.map fun ph => ph.countryCode ++ ph.number

@[simp] theorem toList_phoneOf : (phoneOf d).toList = '+' :: d.toList := String.toList_ofList

theorem phoneOf_inj {d' : String} : phoneOf d = phoneOf d' ↔ d = d' := by
  simp [← String.toList_inj]

theorem PhoneLength.ne_empty (h : PhoneLength d) : d ≠ "" := by
  rintro rfl
  simp [PhoneLength] at h

theorem not_isSpace_of_isDigit {c : Char} (h : c.isDigit = true) : isSpace c = false := by
  simp only [Char.isDigit, Bool.and_eq_true, decide_eq_true_eq] at h
  have hc : 48 ≤ c.toNat ∧ c.toNat ≤ 57 := ⟨h.1, h.2⟩
  simp [isSpace]
  omega

theorem digitsOf_trim : digitsOf (trim s) = digitsOf s := by
  have hdrop : ∀ m : List Char, (m.dropWhile isSpace).filter Char.isDigit =
    m.filter Char.isDigit := by
    intro m
    induction m with
    | nil => rfl
    | cons c m ih =>
      by_cases hc : isSpace c = true
      · have hdigit : c.isDigit = false := by
          by_contra h
          rw [not_isSpace_of_isDigit (by simpa using h)] at hc
          cases hc
        rw [List.dropWhile_cons_of_pos hc, ih, List.filter_cons_of_neg (by simp [hdigit])]
      · rw [List.dropWhile_cons_of_neg hc]
  rw [digitsOf, digitsOf, trim, String.toList_ofList, List.filter_reverse, hdrop,
    List.filter_reverse, List.reverse_reverse, hdrop]

theorem normalizePhone_eq_some {p : String} : normalizePhone s = some p ↔
    International s ∧ PhoneLength (digitsOf s) ∧ phoneOf (digitsOf s) = p := by
  simp [normalizePhone, International, PhoneLength, digitsOf, phoneOf, and_assoc]

theorem digitsOf_phoneOf (h : digitsOf s = d) : digitsOf (phoneOf d) = d := by
  subst h
  simp [digitsOf, List.filter_filter]

theorem not_isSpace_phoneOf (h : digitsOf s = d) : ∀ c ∈ (phoneOf d).toList, isSpace c = false := by
  subst h
  intro c hc
  simp only [toList_phoneOf, digitsOf, String.toList_ofList, List.mem_cons, List.mem_filter] at hc
  rcases hc with rfl | ⟨-, hc⟩
  · decide
  · exact not_isSpace_of_isDigit hc

theorem normalizePhone_phoneOf (h : digitsOf s = d) (hd : PhoneLength d) :
    normalizePhone (phoneOf d) = some (phoneOf d) := by
  rw [normalizePhone_eq_some, digitsOf_phoneOf h, International,
    trim_eq_self (not_isSpace_phoneOf h), toList_phoneOf]
  exact ⟨rfl, hd, rfl⟩

theorem contactCondition_whatsapp (hd : d ≠ "") :
    contactCondition lower ⟨.whatsapp, phoneOf d⟩ r = true ↔
      ∃ e ∈ storedPhones r, digitsOf e = d := by
  have hempty : digitsOf "" ≠ d := fun h => hd (h ▸ rfl)
  have hdrop : String.ofList ((phoneOf d).toList.drop 1) = d := by simp
  simp only [contactCondition, hdrop, storedPhones]
  cases r.phoneNumber <;> simp [hempty]

theorem contactFilter_phone (hd : PhoneLength d) :
    contactFilter cfg none (some (phoneOf d)) r = true ↔
      ∃ e ∈ storedPhones r, International e ∧ digitsOf e = d := by
  have hfilter : contactFilter cfg none (some (phoneOf d)) r = (storedPhones r).any
      fun entry => entry ≠ "" && normalizePhone entry = some (phoneOf d) := rfl
  simp only [hfilter, List.any_eq_true, Bool.and_eq_true, decide_eq_true_eq,
    normalizePhone_eq_some, phoneOf_inj]
  refine exists_congr fun e => and_congr_right fun _ => ?_
  constructor
  · rintro ⟨-, hplus, -, heq⟩
    exact ⟨hplus, heq⟩
  · rintro ⟨hplus, rfl⟩
    refine ⟨?_, hplus, hd, rfl⟩
    rintro rfl
    exact hd.ne_empty rfl

/-! ### The two paths side by side -/

theorem resendIdentifier_eq_some : resendIdentifier cfg raw = some n ↔
    (n.channel = .email ∧ normalizeEmail cfg raw = some n.value) ∨
      (n.channel = .whatsapp ∧ normalizeEmail cfg raw = none ∧
        normalizePhone raw = some n.value) := by
  obtain ⟨channel, value⟩ := n
  unfold resendIdentifier
  cases normalizeEmail cfg raw with
  | none => simp [and_comm, eq_comm]
  | some email => simp [and_comm, eq_comm]

theorem normalizeIdentifier_eq (h : LowerCases cfg.toLowerCase) (raw : String) :
    normalizeIdentifier cfg raw = resendIdentifier cfg raw := by
  have hemail : isEmail (cfg.toLowerCase (trim raw)).toList = isEmail (trim raw).toList :=
    isEmail_respelled (h _)
  unfold normalizeIdentifier resendIdentifier normalizeEmail
  simp only [hemail, digitsOf_trim]
  by_cases haddr : isEmail (trim raw).toList = true
  · simp [haddr]
  · by_cases hplus : (trim raw).toList.head? = some '+'
    · by_cases hlen : 8 ≤ (digitsOf raw).toList.length ∧ (digitsOf raw).toList.length ≤ 15
      · have hphone := normalizePhone_eq_some.2 ⟨hplus, hlen, rfl⟩
        simp [haddr, hplus, hlen, hphone, phoneOf]
      · have hphone : normalizePhone raw = none := Option.eq_none_iff_forall_ne_some.2
          fun p hp => hlen (normalizePhone_eq_some.1 hp).2.1
        simp [haddr, hlen, hphone]
    · have hphone : normalizePhone raw = none := Option.eq_none_iff_forall_ne_some.2
        fun p hp => hplus (normalizePhone_eq_some.1 hp).1
      simp [haddr, hplus, hphone]

/-- Whatever identifier is typed, both paths find the invitation by it, or neither does. -/
def RecoveredAlike (cfg : Config) (lower : String → String) (r : Invitation) : Prop :=
  ∀ raw n, normalizeIdentifier cfg raw = some n →
    let email := normalizeEmail cfg raw
    let phone := if email.isSome then none else normalizePhone raw
    contactCondition lower n r = contactFilter cfg email phone r

/-- A stored address has no blanks around it and the database lowers it as the service does;
a stored phone number has the international prefix, there or where it is stored again. -/
structure Canonical (cfg : Config) (lower : String → String) (r : Invitation) : Prop where
  email : ∀ e, r.email = some e → isEmail (trim e).toList = true →
    trim e = e ∧ lower e = cfg.toLowerCase e
  phone : ∀ e ∈ storedPhones r, PhoneLength (digitsOf e) →
    ∃ e' ∈ storedPhones r, International e' ∧ digitsOf e' = digitsOf e

theorem email_alike_iff (hcfg : LowerCases cfg.toLowerCase) (hdb : LowerCases lower) :
    (∀ raw v, normalizeEmail cfg raw = some v →
        contactCondition lower ⟨.email, v⟩ r = contactFilter cfg (some v) none r) ↔
      ∀ e, r.email = some e → isEmail (trim e).toList = true →
        trim e = e ∧ lower e = cfg.toLowerCase e := by
  constructor
  · intro h e he haddr
    have htrim := trim_eq_self (not_isSpace_of_isEmail haddr)
    have hlow : isEmail (cfg.toLowerCase (trim e)).toList = true :=
      (isEmail_respelled (hcfg _)).trans haddr
    -- the stored address, typed without its blanks
    have hsame := h (trim e) _ (normalizeEmail_eq_some.2 ⟨by rwa [htrim], by rw [htrim]⟩)
    have hdbe : lower e = cfg.toLowerCase (trim e) := by
      simpa [contactCondition, contactFilter, he] using hsame
    have hstored : isEmail e.toList = true := by
      rw [← isEmail_respelled (hdb e), hdbe, hlow]
    have htrim' := trim_eq_self (not_isSpace_of_isEmail hstored)
    exact ⟨htrim', by rw [hdbe, htrim']⟩
  · intro h raw v hv
    have hvaddr : isEmail v.toList = true := by
      obtain ⟨haddr, rfl⟩ := normalizeEmail_eq_some.1 hv
      exact haddr
    cases he : r.email with
    | none => simp [contactCondition, contactFilter, he]
    | some e =>
      have hiff : lower e = v ↔ cfg.toLowerCase (trim e) = v := by
        constructor
        · rintro rfl
          have hstored := (isEmail_respelled (hdb e)).symm.trans hvaddr
          have htrim := trim_eq_self (not_isSpace_of_isEmail hstored)
          rw [htrim]
          exact (h e he (by rwa [htrim])).2.symm
        · rintro rfl
          obtain ⟨htrim, hlow⟩ := h e he ((isEmail_respelled (hcfg _)).symm.trans hvaddr)
          rw [htrim, hlow]
      simp [contactCondition, contactFilter, he, hiff]

theorem normalizeEmail_phoneOf (hcfg : LowerCases cfg.toLowerCase) (h : digitsOf s = d) :
    normalizeEmail cfg (phoneOf d) = none := by
  refine Option.eq_none_iff_forall_ne_some.2 fun v hv => ?_
  have haddr := (isEmail_respelled (hcfg _)).symm.trans (normalizeEmail_eq_some.1 hv).1
  rw [trim_eq_self (not_isSpace_phoneOf h)] at haddr
  obtain ⟨user, host, top, heq, -⟩ := isEmail_iff.1 haddr
  have hat : '@' ∈ (phoneOf d).toList := by simp [heq]
  subst h
  simp [digitsOf] at hat

theorem phone_alike_iff (hcfg : LowerCases cfg.toLowerCase) :
    (∀ raw p, normalizeEmail cfg raw = none → normalizePhone raw = some p →
        contactCondition lower ⟨.whatsapp, p⟩ r = contactFilter cfg none (some p) r) ↔
      ∀ e ∈ storedPhones r, PhoneLength (digitsOf e) →
        ∃ e' ∈ storedPhones r, International e' ∧ digitsOf e' = digitsOf e := by
  constructor
  · intro h e he hlen
    -- the stored number, typed with the prefix
    have hsame := h (phoneOf (digitsOf e)) _ (normalizeEmail_phoneOf hcfg rfl)
      (normalizePhone_phoneOf rfl hlen)
    have hfound : contactCondition lower ⟨.whatsapp, phoneOf (digitsOf e)⟩ r = true :=
      (contactCondition_whatsapp hlen.ne_empty).2 ⟨e, he, rfl⟩
    rw [hsame] at hfound
    exact (contactFilter_phone hlen).1 hfound
  · intro h raw p _ hp
    obtain ⟨-, hlen, rfl⟩ := normalizePhone_eq_some.1 hp
    rw [Bool.eq_iff_iff, contactCondition_whatsapp hlen.ne_empty, contactFilter_phone hlen]
    constructor
    · rintro ⟨e, he, heq⟩
      rw [← heq] at hlen ⊢
      exact h e he hlen
    · rintro ⟨e, he, -, heq⟩
      exact ⟨e, he, heq⟩

theorem recoveredAlike_iff (hcfg : LowerCases cfg.toLowerCase) : RecoveredAlike cfg lower r ↔
    (∀ raw v, normalizeEmail cfg raw = some v →
        contactCondition lower ⟨.email, v⟩ r = contactFilter cfg (some v) none r) ∧
      ∀ raw p, normalizeEmail cfg raw = none → normalizePhone raw = some p →
        contactCondition lower ⟨.whatsapp, p⟩ r = contactFilter cfg none (some p) r := by
  constructor
  · intro h
    constructor
    · intro raw v hv
      have hn : normalizeIdentifier cfg raw = some ⟨.email, v⟩ := by
        rw [normalizeIdentifier_eq hcfg]
        exact resendIdentifier_eq_some.2 (.inl ⟨rfl, hv⟩)
      simpa [hv] using h raw _ hn
    · intro raw p hv hp
      have hn : normalizeIdentifier cfg raw = some ⟨.whatsapp, p⟩ := by
        rw [normalizeIdentifier_eq hcfg]
        exact resendIdentifier_eq_some.2 (.inr ⟨rfl, hv, hp⟩)
      simpa [hv, hp] using h raw _ hn
  · rintro ⟨hemail, hphone⟩ raw ⟨channel, value⟩ hn
    rw [normalizeIdentifier_eq hcfg] at hn
    rcases resendIdentifier_eq_some.1 hn with ⟨rfl, hv⟩ | ⟨rfl, hv, hp⟩
    · simpa [hv] using hemail raw value hv
    · simpa [hv, hp] using hphone raw value hv hp

/-- Both paths take every identifier for the same; they find an invitation alike if and only
if its contacts are stored canonically. -/
theorem recovery_alike_iff (hcfg : LowerCases cfg.toLowerCase) (hdb : LowerCases lower) :
    (∀ raw, normalizeIdentifier cfg raw = resendIdentifier cfg raw) ∧
      (∀ r, RecoveredAlike cfg lower r ↔ Canonical cfg lower r) ∧ Searches cfg lower := by
  refine ⟨normalizeIdentifier_eq hcfg, fun r => ?_,
    fun _ _ _ _ _ => matchesIdentity_eq .., fun _ => mem_findMatches⟩
  rw [recoveredAlike_iff hcfg, email_alike_iff hcfg hdb, phone_alike_iff hcfg]
  exact ⟨fun h => ⟨h.1, h.2⟩, fun h => ⟨h.email, h.phone⟩⟩

section Example

def asciiLower (s : String) : String := String.ofList (s.toList.map Char.toLower)

def asciiConfig : Config := { plainConfig with toLowerCase := asciiLower }

theorem AddressMark.toNat_not {c : Char} (h : AddressMark c) :
    ¬ (65 ≤ c.toNat ∧ c.toNat ≤ 122) := by
  rcases h with h | rfl | rfl
  · simp [isSpace] at h
    omega
  · decide
  · decide

theorem toLower_cases (c : Char) :
    c.toLower = c ∨ (65 ≤ c.toNat ∧ c.toNat ≤ 90 ∧ c.toLower.toNat = c.toNat + 32) := by
  unfold Char.toLower
  split
  · rename_i h
    have hc : 65 ≤ c.toNat ∧ c.toNat ≤ 90 := h
    refine .inr ⟨hc.1, hc.2, ?_⟩
    change (c.val + 32).toNat = c.val.toNat + 32
    rw [UInt32.toNat_add]
    exact Nat.mod_eq_of_lt (Nat.lt_of_le_of_lt (Nat.add_le_add_right hc.2 32) (by decide))
  · exact .inl rfl

theorem asciiLower_lowerCases : LowerCases asciiLower := fun s => by
  rw [asciiLower, String.toList_ofList]
  refine .of_map (fun c hc => ?_) (fun c hc => ?_) s.toList
  · rcases toLower_cases c with h | ⟨hle, hge, -⟩
    · exact h
    · exact absurd ⟨hle, by omega⟩ hc.toNat_not
  · rcases toLower_cases c with h | ⟨hle, hge, h⟩
    · rwa [h] at hc
    · exact absurd ⟨by omega, by omega⟩ hc.toNat_not

def guestRow (email : String) (countryCode : String) : Invitation where
  type := .privateInvite
  firstName := "Max"
  lastName := "Mustermann"
  eventId := 1
  email := some email
  phoneNumbers := [⟨"15112345678", .whatsapp, none, true, countryCode⟩]

/-- A number stored without its prefix is known to the link alone, an address stored with a
blank to the resend alone. -/
theorem recovery_not_alike :
    ¬ RecoveredAlike asciiConfig asciiLower (guestRow "guest@example.com" "49") ∧
      ¬ RecoveredAlike asciiConfig asciiLower (guestRow " guest@example.com" "+49") := by
  constructor
  · intro h
    have hsame := h "+49 151 12345678" ⟨.whatsapp, "+4915112345678"⟩ (by decide)
    have hemail : normalizeEmail asciiConfig "+49 151 12345678" = none := by decide
    have hphone : normalizePhone "+49 151 12345678" = some "+4915112345678" := by decide
    simp only [hemail, hphone] at hsame
    exact absurd hsame (by decide)
  · intro h
    have hsame := h "Guest@Example.com" ⟨.email, "guest@example.com"⟩ (by decide)
    have hemail : normalizeEmail asciiConfig "Guest@Example.com" = some "guest@example.com" := by
      decide
    simp only [hemail] at hsame
    exact absurd hsame (by decide)

theorem recovery_alike_iff_canonical :
    (∀ raw, normalizeIdentifier asciiConfig raw = resendIdentifier asciiConfig raw) ∧
      RecoveredAlike asciiConfig asciiLower (guestRow "Guest@example.com" "+49") :=
  have hlower : LowerCases asciiConfig.toLowerCase := asciiLower_lowerCases
  have halike := recovery_alike_iff hlower asciiLower_lowerCases
  ⟨halike.1, (halike.2.1 _).2 ⟨by decide, by decide⟩⟩

end Example

end GuestMagicLink
end InvitationService
