import SmartMedia.Urls.NumericHosts

/-!
# Private hosts

Which private addresses and dangerous names the URL validator lets through.
-/
namespace SmartMedia.Urls
open PythonText Strm
open Parts (check_ok_iff)
open IpAddress (Address Network ipAddress? ipv4? ipv6? assemble inetAton? number? isDigitIn digitValue
  valueIn NumberForm octet? scoped? toNat_of_isDigitIn)

section Hosts

/-- The address that a resolver takes a numeric host for. -/
def denotes? (host : Text) : Option Address := ((inetAton? host).map Address.v4).or (scoped? host)

/-- The address lies in one of the validator's ranges. -/
def InRanges : Address → Prop
  | .v4 n => ∃ network ∈ privateIpv4Ranges, network.contains n = true
  | .v6 n _ => ∃ network ∈ privateIpv6Ranges, network.contains n = true

def Dangerous (host : Text) : Prop := ∃ domain ∈ dangerousHostnames, inDomain host domain = true

def Harmful (host : Text) : Prop := Dangerous host ∨ ∃ ip, denotes? host = some ip ∧ InRanges ip

/-- Without a dot at the end. -/
def bare (host : Text) : Text := if host.getLast? = some '.' then host.dropLast else host

/-- The spellings of an address that the validator does not read: fewer than four parts behind a dot,
four of which one is hexadecimal, and one number in octal, unless its reading in decimal is refused. -/
inductive Unread (host : Text) : Prop
  | short (hlength : (host.splitOn '.').length = 2 ∨ (host.splitOn '.').length = 3)
  | mixed (hlength : (host.splitOn '.').length = 4) (part : Text) (hpart : part ∈ host.splitOn '.')
      (hhex : IsHex part)
  | octal (c : Char) (s : Text) (hhost : host = '0' :: c :: s) (hc : c ∉ ['x', 'X'])
      (hdot : '.' ∉ host)
      (hdecimal : ¬(host.length ≤ maxStrDigits ∧ valueIn 10 host < 2 ^ 32 ∧
        InRanges (.v4 (valueIn 10 host))))

/-- A harmful host behind which a dot stands, or a private address in a spelling that is not read. -/
inductive Missed (host : Text) : Prop
  | dotted (hdot : host.getLast? = some '.') (hharmful : Harmful host.dropLast)
      (hscoped : ¬∃ ip, scoped? host = some ip ∧ InRanges ip)
  | spelling (n : ℕ) (hn : inetAton? host = some n) (hprivate : InRanges (.v4 n))
      (hunread : Unread host)

theorem isPrivateIp_iff (ip : Address) : isPrivateIp ip = true ↔ InRanges ip := by
  cases ip with
  | v4 n => rw [isPrivateIp, List.any_eq_true, InRanges]
  | v6 n scope =>
      rw [isPrivateIp, Bool.or_eq_true, List.any_eq_true, InRanges, or_iff_left_of_imp]
      intro h
      rw [Bool.and_eq_true, decide_eq_true_iff] at h
      have hbase : (ipv6? "::ffff:0:0".toList).getD 0 = 281470681743360 := by decide
      refine ⟨_, List.mem_map.mpr ⟨("::ffff:0:0", 96), by simp, rfl⟩, ?_⟩
      dsimp only [Network.contains]
      rw [decide_eq_true_iff, hbase]
      exact h.1

theorem checkDangerousHostname_eq_ok_iff {host : Text} :
    checkDangerousHostname host = .ok () ↔ ¬Dangerous host := by
  have hany : dangerousHostnames.any (inDomain host) = true ↔ Dangerous host := List.any_eq_true
  have hself : host ∈ dangerousHostnames → Dangerous host := fun h =>
    ⟨host, h, by rw [inDomain, decide_eq_true rfl, Bool.true_or]⟩
  rw [checkDangerousHostname]
  constructor
  · intro h hdangerous
    rw [if_pos (hany.mpr hdangerous)] at h
    split_ifs at h
    · cases h
  · intro h
    rw [if_neg (mt hself h), if_neg (mt hany.mp h)]
    rfl

end Hosts

section Lowering
variable {lowering : Lowering} {checks : NetlocChecks} {url host name scope : Text}
  {parsed : ParseResult}

theorem slash_notMem_netloc (h : urlparse checks url = .ok parsed) : '/' ∉ parsed.netloc := by
  rw [urlparse] at h
  dsimp only [bind, Except.bind, pure, Except.pure] at h
  split at h
  · cases h
  · cases h
    dsimp only
    split
    · exact fun hmem => (mem_of_mem_cutAt_fst hmem).2 List.mem_cons_self
    · exact List.not_mem_nil

/-- A host in lower case up to the zone, without a slash. -/
structure HostForm (lowering : Lowering) (host : Text) : Prop where
  split : ∃ name zone, host = lowering.lower name ++ zone ∧ '%' ∉ name ∧
    (zone = [] ∨ ∃ scope, zone = '%' :: scope)
  slash : '/' ∉ host

theorem hostForm (hparsed : urlparse checks url = .ok parsed)
    (hhost : hostname lowering parsed.netloc = some host) : HostForm lowering host := by
  rw [hostname] at hhost
  dsimp only at hhost
  split_ifs at hhost with hne
  cases hhost
  have hslash : '/' ∉ (hostinfo parsed.netloc).1 := fun h =>
    slash_notMem_netloc hparsed (mem_of_mem_hostinfo h)
  refine ⟨⟨_, _, rfl, ?_, ?_⟩, ?_⟩
  · exact fun h => (mem_of_mem_cutAt_fst h).2 List.mem_cons_self
  · rcases cutAt_snd ['%'] (hostinfo parsed.netloc).1 with hnil | ⟨c, hc, scope, hscope⟩
    · exact .inl hnil
    · rw [List.mem_singleton] at hc
      exact .inr ⟨scope, hc ▸ hscope⟩
  · rw [List.mem_append, Lowering.mem_lower_iff (by decide) (by decide)]
    rintro (h | h)
    · exact hslash (mem_of_mem_cutAt_fst h).1
    · exact hslash (mem_of_mem_cutAt_snd h)

theorem scoped?_zone (h : '%' ∉ name) :
    scoped? (name ++ '%' :: scope) =
      if scope = [] ∨ '%' ∈ scope then none
      else (IpAddress.ipv6? name).map fun n => .v6 n (some scope) := by
  have hname : (name ++ '%' :: scope).takeWhile (· ≠ '%') = name := by
    rw [List.takeWhile_append_of_pos fun c hc => decide_eq_true (ne_of_mem_of_not_mem hc h)]
    simp
  have hscope : (name ++ '%' :: scope).drop (name.length + 1) = scope := by simp
  rw [scoped?, if_pos (by simp), hname, hscope]

/-- The zone's case does not matter. -/
theorem scoped_lower_iff (h : HostForm lowering host) :
    (∃ ip, scoped? (lowering.lower host) = some ip ∧ InRanges ip) ↔
      ∃ ip, scoped? host = some ip ∧ InRanges ip := by
  obtain ⟨⟨name, zone, rfl, hname, rfl | ⟨scope, rfl⟩⟩, -⟩ := h
  · rw [List.append_nil, Lowering.lower_lower]
  · have hpercent : '%' ∉ lowering.lower name :=
      mt (Lowering.mem_lower_iff (by decide) (by decide)).mp hname
    have hscope : lowering.lower scope = [] ∨ '%' ∈ lowering.lower scope ↔ scope = [] ∨ '%' ∈ scope :=
      or_congr Lowering.lower_eq_nil (Lowering.mem_lower_iff (by decide) (by decide))
    rw [Lowering.lower_append, Lowering.lower_lower, Lowering.lower_cons_of_ascii (by decide)]
    change (∃ ip, scoped? (lowering.lower name ++ '%' :: lowering.lower scope) = some ip ∧ _) ↔ _
    rw [scoped?_zone hpercent, scoped?_zone hpercent]
    by_cases hnone : scope = [] ∨ '%' ∈ scope
    · rw [if_pos hnone, if_pos (hscope.mpr hnone)]
    · rw [if_neg hnone, if_neg (mt hscope.mp hnone)]
      cases IpAddress.ipv6? (lowering.lower name) with
      | none => exact Iff.rfl
      | some n =>
          simp only [Option.map_some, Option.some_inj, exists_eq_left']
          exact Iff.rfl

theorem lower_of_form (h : HostForm lowering host) (hpercent : '%' ∉ host) :
    lowering.lower host = host := by
  obtain ⟨⟨name, zone, rfl, hname, rfl | ⟨scope, rfl⟩⟩, -⟩ := h
  · rw [List.append_nil, Lowering.lower_lower]
  · exact absurd (List.mem_append_right _ List.mem_cons_self) hpercent

end Lowering

section Reading
variable {lowering : Lowering} {host : Text} {ip : Address} {n : ℕ}

theorem inetAton?_of_dotted (h : host.getLast? = some '.') : inetAton? host = none := by
  obtain ⟨front, rfl⟩ := List.getLast?_eq_some_iff.mp h
  have hpart : [] ∈ (front ++ ['.']).splitOn '.' := by
    rw [List.splitOn_append_cons_self, List.splitOn_nil]
    exact List.mem_append_right _ List.mem_cons_self
  rw [inetAton?, Parts.mapM_eq_none hpart rfl]
  rfl

theorem ipv4?_eq_none (h : inetAton? host = none) : ipv4? host = none := by
  by_contra hsome
  obtain ⟨n, hn⟩ := Option.ne_none_iff_exists'.mp hsome
  rw [IpAddress.inetAton?_of_ipv4? hn] at h
  cases h

/-- Behind a dot at the end nothing but a zone is read. -/
theorem tryParseIp_of_dotted (hslash : '/' ∉ host) (h : host.getLast? = some '.') :
    tryParseIp host = scoped? host := by
  have hipv4 := ipv4?_eq_none (inetAton?_of_dotted h)
  have hbracket : ¬(host.head? = some '[' ∧ host.getLast? = some ']') := by
    rw [h]
    rintro ⟨-, hb⟩
    cases hb
  have hdotted : parseDotted host = none := by
    obtain ⟨front, rfl⟩ := List.getLast?_eq_some_iff.mp h
    have hpart : [] ∈ (front ++ ['.']).splitOn '.' := by
      rw [List.splitOn_append_cons_self, List.splitOn_nil]
      exact List.mem_append_right _ List.mem_cons_self
    rw [parseDotted, Parts.mapM_eq_none hpart (show octalPart [] = none from toInt?_nil 10)]
    split_ifs
    · rfl
    · rfl
  have hnumeric : parseNumeric host = none := by
    rw [parseNumeric, parseWhole_of_dot (List.mem_of_getLast? h)]
    split_ifs
    · rfl
    · exact hdotted
  rw [tryParseIp, ipAddress?, if_neg hslash, hipv4, if_neg hbracket, hnumeric]
  exact Option.or_none

theorem colon_of_scoped? (h : scoped? host = some ip) : ':' ∈ host := by
  by_contra hcolon
  have hnone : ∀ {name}, (∀ c ∈ name, c ∈ host) → IpAddress.ipv6? name = none := fun hsub =>
    ipv6?_eq_none fun hmem => hcolon (hsub _ hmem)
  rw [scoped?, hnone fun c hc => hc, hnone fun c hc => (List.takeWhile_prefix _).mem hc] at h
  simp only [Option.map_none, ite_self] at h
  cases h

theorem tryParseIp_of_scoped (hslash : '/' ∉ host) (h : scoped? host = some ip) :
    tryParseIp host = some ip := by
  have hipv4 : ipv4? host = none := by
    apply ipv4?_eq_none
    by_contra hsome
    obtain ⟨n, hn⟩ := Option.ne_none_iff_exists'.mp hsome
    exact plain_of_inetAton? hn ':' (colon_of_scoped? h) List.mem_cons_self
  rw [tryParseIp, ipAddress?, if_neg hslash, hipv4, h]
  rfl

theorem not_dangerous_of_dotted (h : host.getLast? = some '.') : ¬Dangerous host := by
  have hnames : ∀ domain ∈ dangerousHostnames, domain ≠ [] ∧ domain.getLast? ≠ some '.' := by
    intro domain hdomain
    have hall : dangerousHostnames.all (fun d => d ≠ [] ∧ d.getLast? ≠ some '.') = true := by decide
    exact of_decide_eq_true (List.all_eq_true.mp hall domain hdomain)
  rintro ⟨domain, hdomain, hin⟩
  obtain ⟨hne, hlast⟩ := hnames domain hdomain
  rw [inDomain, Bool.or_eq_true, decide_eq_true_iff, List.isSuffixOf_iff_suffix] at hin
  rcases hin with rfl | ⟨front, rfl⟩
  · exact hlast h
  · rw [List.getLast?_append, List.getLast?_cons_of_ne_nil hne,
      List.getLast?_eq_some_getLast hne, Option.some_or] at h
    exact hlast ((List.getLast?_eq_some_getLast hne).trans h)

theorem dangerous_lower (h : Dangerous host) : Dangerous (lowering.lower host) := by
  have hlower : ∀ domain ∈ dangerousHostnames, lowering.lower domain = domain := by
    intro domain hdomain
    simp only [dangerousHostnames, List.map_cons, List.map_nil, List.mem_cons, List.not_mem_nil,
      or_false] at hdomain
    rcases hdomain with rfl | rfl | rfl | rfl | rfl | rfl | rfl | rfl | rfl | rfl | rfl
    all_goals rfl
  obtain ⟨domain, hdomain, hin⟩ := h
  refine ⟨domain, hdomain, ?_⟩
  rw [inDomain, Bool.or_eq_true, decide_eq_true_iff, List.isSuffixOf_iff_suffix] at hin ⊢
  rcases hin with rfl | ⟨front, rfl⟩
  · exact .inl (hlower host hdomain)
  · right
    rw [Lowering.lower_append, Lowering.lower_cons_of_ascii (by decide), hlower domain hdomain]
    exact List.suffix_append _ _

/-- Each dangerous name has a letter that no number has. -/
theorem not_dangerous_of_inetAton? (h : inetAton? host = some n) : ¬Dangerous host := by
  have hnames : dangerousHostnames.all
      (fun domain => domain.any fun c => 103 ≤ c.toNat ∧ c.toNat ≤ 119) = true := by decide
  rintro ⟨domain, hdomain, hin⟩
  obtain ⟨c, hc, hletter⟩ := List.any_eq_true.mp (List.all_eq_true.mp hnames domain hdomain)
  obtain ⟨hlow, hhigh⟩ := of_decide_eq_true hletter
  have hmem : c ∈ host := by
    rw [inDomain, Bool.or_eq_true, decide_eq_true_iff, List.isSuffixOf_iff_suffix] at hin
    rcases hin with rfl | hsuffix
    · exact hc
    · exact hsuffix.mem (List.mem_cons_of_mem _ hc)
  rcases chars_of_inetAton? h hmem with rfl | hx | ⟨base, hdigit⟩
  · exact absurd hlow (by decide)
  · rw [List.mem_cons, List.mem_singleton] at hx
    rcases hx with rfl | rfl
    · exact absurd hhigh (by decide)
    · exact absurd hlow (by decide)
  · have hrange := toNat_of_isDigitIn hdigit
    omega

theorem dot_of_length (h : (host.splitOn '.').length ≠ 1) : '.' ∈ host := by
  by_contra hdot
  rw [List.splitOn_eq_singleton hdot] at h
  exact h rfl

theorem length_of_dot (h : '.' ∈ host) : (host.splitOn '.').length ≠ 1 := by
  intro hlength
  obtain ⟨part, hpart⟩ := List.length_eq_one_iff.mp hlength
  have hhost : ['.'].intercalate (host.splitOn '.') = host := List.intercalate_splitOn '.'
  rw [hpart] at hhost
  obtain rfl : part = host := by simpa using hhost
  exact Parts.notMem_part (hpart ▸ List.mem_singleton_self part) h

/-- What is not read is not refused. -/
theorem not_inRanges_of_unread (hn : inetAton? host = some n) (h : Unread host)
    (hip : tryParseIp host = some ip) : ¬InRanges ip := by
  cases h with
  | short hlength =>
      rw [tryParseIp_eq_none hn (dot_of_length (by omega)) fun hfour => by omega] at hip
      cases hip
  | mixed hlength part hpart hhex =>
      rw [tryParseIp_eq_none hn (dot_of_length (by omega)) fun _ => ⟨part, hpart, hhex⟩] at hip
      cases hip
  | octal c s hhost hc hdot hdecimal =>
      subst hhost
      rw [tryParseIp_of_octal hn hdot hc] at hip
      split_ifs at hip with hsmall
      cases hip
      exact fun h => hdecimal ⟨hsmall.1, hsmall.2, h⟩

theorem inRanges_of_read (hn : inetAton? host = some n) (hprivate : InRanges (.v4 n))
    (h : ¬Unread host) : ∃ ip, tryParseIp host = some ip ∧ InRanges ip := by
  by_cases hdot : '.' ∈ host
  · obtain ⟨numbers, hforms, hassemble⟩ := numbers_of_inetAton? hn
    have hlength := IpAddress.length_of_assemble hassemble
    rw [← hforms.length_eq] at hlength
    have hone := length_of_dot hdot
    have hfour : (host.splitOn '.').length = 4 := by
      by_contra hne
      exact h (.short (by omega))
    exact ⟨_, tryParseIp_of_four hn hfour fun part hpart hhex => h (.mixed hfour part hpart hhex),
      hprivate⟩
  · by_cases hform : IsHex host ∨ host = ['0'] ∨ host.head? ≠ some '0'
    · exact ⟨_, tryParseIp_of_single hn hdot hform, hprivate⟩
    · rw [not_or, not_or, not_not] at hform
      obtain ⟨hhex, hzero, hhead⟩ := hform
      obtain ⟨rest, rfl⟩ := List.head?_eq_some_iff.mp hhead
      cases rest with
      | nil => exact absurd rfl hzero
      | cons c s =>
          have hc : c ∉ ['x', 'X'] := fun hx => hhex ⟨c, hx, s, rfl⟩
          have hdecimal : ('0' :: c :: s).length ≤ maxStrDigits ∧ valueIn 10 ('0' :: c :: s) < 2 ^ 32 ∧
              InRanges (.v4 (valueIn 10 ('0' :: c :: s))) := by
            by_contra hnot
            exact h (.octal c s rfl hc hdot hnot)
          refine ⟨_, ?_, hdecimal.2.2⟩
          rw [tryParseIp_of_octal hn hdot hc, if_pos ⟨hdecimal.1, hdecimal.2.1⟩]

end Reading

section Validation
variable (lowering : Lowering) (checks : NetlocChecks) (domains : List Text) (url : Text)

/-- The host of a URL as `urlparse` gives it. -/
def HostOf (host : Text) : Prop :=
  ∃ parsed, urlparse checks (Media.strip url) = .ok parsed ∧
    hostname lowering parsed.netloc = some host

/-- A validator that allows no private addresses. -/
def publicOnly : URLValidator := .new lowering domains [] false

/-- What is asked for before the host itself is looked at. -/
structure Considered (host : Text) : Prop where
  visible : Media.strip url ≠ []
  host_ne_nil : host ≠ []
  parsed : ∃ parsed, urlparse checks (Media.strip url) = .ok parsed ∧
    hostname lowering parsed.netloc = some host ∧ lowering.lower parsed.scheme ∈ allowedSchemes
  domain : domains = [] ∨
    (publicOnly lowering domains).isDomainAllowed (lowering.lower host) = true

theorem validate_eq_ok_iff :
    (publicOnly lowering domains).validate lowering checks (some url) false = .ok () ↔
      ∃ host, Considered lowering checks domains url host ∧ ¬Dangerous (lowering.lower host) ∧
        ∀ ip, tryParseIp (lowering.lower host) = some ip → ¬InRanges ip := by
  have haddress : ∀ host : Text,
      (publicOnly lowering domains).checkIpAddress host false = .ok () ↔
        ∀ ip, tryParseIp host = some ip → ¬InRanges ip := by
    intro host
    rw [URLValidator.checkIpAddress]
    cases tryParseIp host with
    | none => exact iff_of_true rfl fun ip hip => by cases hip
    | some ip =>
        have hlist : ip ∉ (publicOnly lowering domains).allowedPrivateIps := List.not_mem_nil
        have hdefault : ¬(false || (publicOnly lowering domains).allowPrivateByDefault) = true :=
          Bool.false_ne_true
        dsimp only
        rw [if_neg hlist, if_neg hdefault, check_ok_iff, isPrivateIp_iff, and_iff_left rfl]
        constructor
        · rintro h _ ⟨⟩
          exact h
        · exact fun h => h ip rfl
  rw [URLValidator.validate]
  dsimp only [bind, Except.bind, pure, Except.pure, throw, throwThe, MonadExceptOf.throw]
  by_cases hurl : url = []
  · subst hurl
    constructor
    · intro h
      cases h
    · rintro ⟨host, hconsidered, -⟩
      exact absurd rfl hconsidered.visible
  rw [truthy_of_ne_nil hurl]
  dsimp only
  rw [check_ok_iff]
  cases hparsed : urlparse checks (Media.strip url) with
  | error message =>
      constructor
      · rintro ⟨-, h⟩
        cases h
      · rintro ⟨host, ⟨-, -, ⟨parsed, h, -⟩, -⟩, -⟩
        rw [hparsed] at h
        cases h
  | ok parsed =>
      dsimp only
      rw [check_ok_iff, not_not]
      have hunique : ∀ host, Considered lowering checks domains url host →
          hostname lowering parsed.netloc = some host ∧ lowering.lower parsed.scheme ∈ allowedSchemes := by
        rintro host ⟨-, -, ⟨parsed', h, hhost⟩, -⟩
        rw [hparsed] at h
        cases h
        exact hhost
      cases hhost : hostname lowering parsed.netloc with
      | none =>
          constructor
          · rintro ⟨-, -, h⟩
            cases h
          · rintro ⟨host, h, -⟩
            have hsome := (hunique host h).1
            rw [hhost] at hsome
            cases hsome
      | some host =>
          by_cases hempty : host = []
          · subst hempty
            constructor
            · rintro ⟨-, -, h⟩
              cases h
            · rintro ⟨host, h, -⟩
              have hsome := (hunique host h).1
              rw [hhost] at hsome
              cases hsome
              exact absurd rfl h.host_ne_nil
          · rw [truthy_of_ne_nil hempty]
            dsimp only
            have hdomain : ¬((publicOnly lowering domains).allowedDomains ≠ [] ∧
                (publicOnly lowering domains).isDomainAllowed (lowering.lower host) = false) ↔
                domains = [] ∨
                  (publicOnly lowering domains).isDomainAllowed (lowering.lower host) = true := by
              have hlist : (publicOnly lowering domains).allowedDomains = [] ↔ domains = [] :=
                List.map_eq_nil_iff
              rw [not_and_or, not_not, Bool.not_eq_false, hlist]
            have hname := @checkDangerousHostname_eq_ok_iff (lowering.lower host)
            constructor
            · rintro ⟨hvisible, hscheme, h⟩
              cases hcheck : checkDangerousHostname (lowering.lower host) with
              | error message =>
                  rw [hcheck] at h
                  cases h
              | ok v =>
                  rw [hcheck] at h
                  dsimp only at h
                  rw [check_ok_iff, hdomain, haddress] at h
                  exact ⟨host, ⟨hvisible, hempty, ⟨parsed, hparsed, hhost, hscheme⟩, h.1⟩,
                    hname.mp hcheck, h.2⟩
            · rintro ⟨host', h, hsafe, hread⟩
              obtain ⟨hsome, hscheme⟩ := hunique host' h
              rw [hhost] at hsome
              cases hsome
              refine ⟨h.visible, hscheme, ?_⟩
              rw [hname.mpr hsafe]
              dsimp only
              rw [check_ok_iff, hdomain, haddress]
              exact ⟨h.domain, hread⟩

variable {lowering checks domains url}

/-- A harmful host gets through if and only if it is missed. -/
theorem harmful_passes_iff {host : Text} (h : HostForm lowering host) :
    (Harmful (bare host) ∧ ¬Dangerous (lowering.lower host) ∧
      ∀ ip, tryParseIp (lowering.lower host) = some ip → ¬InRanges ip) ↔ Missed host := by
  have hslash : '/' ∉ lowering.lower host :=
    mt (Lowering.mem_lower_iff (by decide) (by decide)).mp h.slash
  by_cases hdot : host.getLast? = some '.'
  · have hlast : (lowering.lower host).getLast? = some '.' := by
      obtain ⟨front, rfl⟩ := List.getLast?_eq_some_iff.mp hdot
      rw [Lowering.lower_append]
      exact List.getLast?_eq_some_iff.mpr ⟨_, rfl⟩
    have hread : (∀ ip, tryParseIp (lowering.lower host) = some ip → ¬InRanges ip) ↔
        ¬∃ ip, scoped? host = some ip ∧ InRanges ip := by
      rw [← scoped_lower_iff h, tryParseIp_of_dotted hslash hlast, not_exists]
      exact forall_congr' fun ip => not_and.symm
    rw [bare, if_pos hdot, hread]
    constructor
    · rintro ⟨hharmful, -, hscoped⟩
      exact .dotted hdot hharmful hscoped
    · intro hmissed
      cases hmissed with
      | dotted _ hharmful hscoped => exact ⟨hharmful, not_dangerous_of_dotted hlast, hscoped⟩
      | spelling n hn =>
          rw [inetAton?_of_dotted hdot] at hn
          cases hn
  · rw [bare, if_neg hdot]
    have hsame : ∀ {n}, inetAton? host = some n → lowering.lower host = host := fun hn =>
      lower_of_form h fun hpercent => plain_of_inetAton? hn '%' hpercent (by simp)
    constructor
    · rintro ⟨hdangerous | ⟨ip, hip, hranges⟩, hsafe, hread⟩
      · exact absurd (dangerous_lower hdangerous) hsafe
      · cases hn : inetAton? host with
        | some n =>
            rw [denotes?, hn] at hip
            cases hip
            by_cases hunread : Unread host
            · exact .spelling n hn hranges hunread
            · obtain ⟨ip, hip, hin⟩ := inRanges_of_read hn hranges hunread
              rw [hsame hn] at hread
              exact absurd hin (hread ip hip)
        | none =>
            rw [denotes?, hn] at hip
            obtain ⟨ip', hip', hin⟩ := (scoped_lower_iff h).mpr ⟨ip, hip, hranges⟩
            exact absurd hin (hread ip' (tryParseIp_of_scoped hslash hip'))
    · intro hmissed
      cases hmissed with
      | dotted hlast => exact absurd hlast hdot
      | spelling n hn hprivate hunread =>
          rw [hsame hn]
          refine ⟨.inr ⟨.v4 n, ?_, hprivate⟩, not_dangerous_of_inetAton? hn, ?_⟩
          · rw [denotes?, hn]
            rfl
          · exact fun ip hip => not_inRanges_of_unread hn hunread hip

variable (lowering checks domains url)

/-- So the validator keeps private hosts out if and only if the URL's host is not missed, which
matters only behind the checks of the scheme and of the domain. -/
theorem validate_keeps_out_iff :
    ((publicOnly lowering domains).validate lowering checks (some url) false = .ok () →
        ∀ host, HostOf lowering checks url host → ¬Harmful (bare host)) ↔
      ∀ host, Considered lowering checks domains url host → ¬Missed host := by
  have hform : ∀ {host}, HostOf lowering checks url host → HostForm lowering host := by
    rintro host ⟨parsed, hparsed, hhost⟩
    exact hostForm hparsed hhost
  have hhostOf : ∀ {host}, Considered lowering checks domains url host →
      HostOf lowering checks url host := by
    intro host h
    obtain ⟨parsed, hparsed, hhost, -⟩ := h.parsed
    exact ⟨parsed, hparsed, hhost⟩
  have hunique : ∀ {host host'}, HostOf lowering checks url host →
      HostOf lowering checks url host' → host = host' := by
    rintro host host' ⟨parsed, hparsed, hhost⟩ ⟨parsed', hparsed', hhost'⟩
    rw [hparsed] at hparsed'
    cases hparsed'
    exact Option.some_inj.mp (hhost.symm.trans hhost')
  rw [validate_eq_ok_iff]
  constructor
  · intro h host hconsidered hmissed
    obtain ⟨hharmful, hsafe, hread⟩ := (harmful_passes_iff (hform (hhostOf hconsidered))).mpr hmissed
    exact h ⟨host, hconsidered, hsafe, hread⟩ host (hhostOf hconsidered) hharmful
  · rintro h ⟨host, hconsidered, hsafe, hread⟩ host' hhost' hharmful
    obtain rfl := hunique hhost' (hhostOf hconsidered)
    exact h host' hconsidered ((harmful_passes_iff (hform hhost')).mp ⟨hharmful, hsafe, hread⟩)

/-- A loopback address in two parts, and a dangerous name behind which a dot stands, get through. -/
theorem loopback_and_localhost_pass :
    ((publicOnly .ascii []).validate .ascii ⟨fun _ => none, fun _ => none⟩
          (some "http://127.1/".toList) false = .ok () ∧
        ∃ host, HostOf .ascii ⟨fun _ => none, fun _ => none⟩ "http://127.1/".toList host ∧
          Harmful (bare host)) ∧
      (publicOnly .ascii []).validate .ascii ⟨fun _ => none, fun _ => none⟩
          (some "http://localhost./".toList) false = .ok () ∧
        ∃ host, HostOf .ascii ⟨fun _ => none, fun _ => none⟩ "http://localhost./".toList host ∧
          Harmful (bare host) := by
  constructor
  · refine ⟨by decide, "127.1".toList, ⟨_, rfl, rfl⟩, .inr ⟨.v4 2130706433, by decide, ?_⟩⟩
    exact (isPrivateIp_iff _).mp (by decide)
  · exact ⟨by decide, "localhost.".toList, ⟨_, rfl, rfl⟩, .inl ⟨"localhost".toList, by decide,
      by decide⟩⟩

end Validation

end SmartMedia.Urls
