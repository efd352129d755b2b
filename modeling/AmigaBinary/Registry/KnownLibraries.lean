import AmigaBinary.Registry.Basic

/-!
# Known libraries

The definitions of published extension libraries, each with the digest of its file. A definition of
a later version lists what is new in it.
-/

namespace AmigaBinary

namespace KnownLibraries

open LibraryDefinition

/-- The library Make, version 1.20. -/
def make1_20 : LibraryDefinition :=
  whole "c454b95d20ddc13920cc963a88895c2a" .pro "Make" "V1_20"
      [("MaAddhead", 7), ("MaAddtail", 9), ("MaAllocmem", 4), ("MaAllocvec", 11), ("MaExtb", 21),
       ("MaExtw", 22), ("MaFilelen", 20), ("MaFirst", 18), ("MaFree", 14), ("MaFreeAll", 15),
       ("MaFreemem", 5), ("MaFreevec", 12), ("MaLast", 19), ("MaMalloc", 13), ("MaNewlist", 6),
       ("MaNext", 16), ("MaPasteIcon", 23), ("MaPlot", 25), ("MaPoint", 24), ("MaPrev", 17),
       ("MaRemhead", 10), ("MaRemove", 8), ("MemChip", 26), ("MemClear", 28), ("MemFast", 27),
       ("MemPublic", 29)]

/-- The library Main, version 1.30. -/
def make1_30 : LibraryDefinition :=
  extending (whole "39ad8fe2a2eedaf497776fb498602c3d" .pro "Main" "V1_30"
      [("MaFclose", 31), ("MaFopen", 30), ("MaFread", 33), ("MaFseek", 34), ("MaFwrite", 32),
       ("MaRealloc", 35)]) make1_20

/-- The library Compact, version 2.00. -/
def compactPro2_00 : LibraryDefinition :=
  whole "57e035efd4d37cb5504bd7d619a99933" .pro "Compact" "V2_00"
      [("Pack_II", 2), ("Pack_IIIIII", 3), ("Spack_II", 4), ("Spack_IIIIII", 5), ("Unpack_I", 6),
       ("Unpack_II", 9), ("Unpack_III", 7)]

/-- The library Requester, version 2.00. -/
def requesterPro2_00 : LibraryDefinition :=
  whole "7d3df35f6a37886c2d4c84542b9300e0" .pro "Requester" "V2_00"
      [("RequestWb", 2), ("RequestOn", 3), ("RequestOff", 4)]

/-- The library Tools, version 1.00. -/
def tools1_00 : LibraryDefinition :=
  whole "6a291e6040b90879575c89e914cf3518" .pro "Tools" "V1_00"
      [("AddPos", 21), ("ArrayBank", 23), ("ArrayDim", 16), ("ArrayGet", 18), ("ArraySet", 17),
       ("Decode", 44), ("Encode", 42), ("GetByte", 9), ("GetCrypt", 37), ("GetLong", 12),
       ("GetPos", 4), ("GetString", 14), ("GetWord", 10), ("OuiBank", 26), ("OuiData", 27),
       ("OuiEdata", 29), ("OuiInit", 40), ("OuiNew", 39), ("OuiReserveText", 31),
       ("OuiSetBank", 25), ("OuiSetData", 28), ("OuiSetEdata", 30), ("OuiSetText", 32),
       ("OuiText", 33), ("Range", 20), ("SetArrayBank", 22), ("SetByte", 5), ("SetCrypt", 35),
       ("SetLong", 7), ("SetPos", 3), ("SetString", 8), ("SetWord", 6)]

/-- The library Tools, version 1.01. -/
def tools1_01 : LibraryDefinition :=
  extending (whole "bdba5e528c59c7300e517d966ff4889b" .pro "Tools" "V1_01"
      [("Checksum", 46)]) tools1_00

/-- The library Amon, version 1.03. -/
def amon1_03 : LibraryDefinition :=
  whole "520ca2adccb70f14b35233ed3222b360" .pro "Amon" "V1_03"
      [("FastAngle_IIIII", 8), ("FastAngle_III", 9), ("FastCircle", 23), ("FastJoy0", 12),
       ("FastJoy1", 11), ("FastPlot", 21), ("Keycode", 14), ("KeyPress", 15), ("LimitRodent", 5),
       ("Lrodent", 6), ("MulCos", 17), ("MulSin", 16), ("RodentKey", 18), ("RodentX", 2),
       ("RodentY", 3), ("Rrodent", 7), ("SetRodent", 19), ("TestAdd", 22), ("VideoWait", 4)]

/-- The library Amon, version 1.04. -/
def amon1_04 : LibraryDefinition :=
  extending (whole "dfa5be99bec25c2e67fdce586b04f47f" .pro "Amon" "V1_04"
      [("ArrayPlot", 24), ("CountColour", 20), ("FastPoint", 22), ("FindColour", 29),
       ("Joy3", 25), ("Joy4", 26)]) amon1_03

/-- The library Serial, version 1.10. -/
def serial1_10 : LibraryDefinition :=
  whole "ca910488e6880d63791ba3fda1858d54" .creator "Serial" "V1_10"
      [("SerialOpen_II", 3), ("SerialOpen_IIIII", 4), ("SerialClose", 6), ("SerialClose_I", 5),
       ("SerialSpeed", 12), ("SerialCheck", 20), ("SerialSend", 8), ("SerialBits", 14),
       ("SerialX", 16), ("SerialBuf", 17), ("SerialParity", 15), ("SerialGet", 10),
       ("SerialInput", 11), ("SerialFast", 18), ("SerialSlow", 19), ("SerialError", 21),
       ("SerialOut", 9)]

/-- The library Serial, version 1.20. -/
def serial1_20 : LibraryDefinition :=
  extending (whole "3473e258886a7f864a78c971995668dd" .creator "Serial" "V1_20" []) serial1_10

/-- The library AGA, version 1.00 for the professional release. -/
def agaPro1_00 : LibraryDefinition :=
  whole "0b00fbcde204d2b6b3597d97d30c8b95" .pro "AGA" "ProV1_00"
      [("AgaBar", 7), ("AgaBox", 6), ("AgaClip", 39), ("AgaCls", 12), ("AgaCls_I", 13),
       ("AgaColour_IIII__V", 24), ("AgaColour_I__I", 25), ("AgaDelBlock", 42),
       ("AgaDrawMode", 35), ("AgaFrontScreen", 30), ("AgaGetBankPalette", 38),
       ("AgaGetBlock_IIIII", 18), ("AgaGetBlock_IIIIII", 19), ("AgaGetPalette", 5),
       ("AgaInk_I", 9), ("AgaInk_II", 10), ("AgaLoadBitplanes", 29), ("AgaPoint", 55),
       ("AgaPutBlock", 20), ("AgaScreen", 23), ("AgaScreenClose", 22), ("AgaScreenCopy_II", 3),
       ("AgaScreenCopy_IIIIIIII", 4), ("AgaScreenOpen", 2), ("AgaSpack", 47),
       ("AgaSpriteMode", 36), ("AgaText", 8), ("AgaUnpack", 48), ("AgaUseFont", 54)]

/-- The library Colours, version 1.00. -/
def colours1_00 : LibraryDefinition :=
  whole "abdae43fb9bcc08a20588f1e588ba5fa" .pro "Colours" "V1_00"
      [("Black", 5), ("Blue", 4), ("Brown", 11), ("COrange", 12), ("Cyan", 8), ("DarkBlue", 15),
       ("DarkBrown", 20), ("DarkCyan", 18), ("DarkGreen", 14), ("DarkGrey", 19),
       ("DarkMagenta", 17), ("DarkRed", 13), ("DarkYellow", 16), ("Green", 3), ("Grey", 10),
       ("LightBlue", 23), ("LightBrown", 28), ("LightCyan", 26), ("LightGreen", 22),
       ("LightGrey", 27), ("LightMagenta", 25), ("LightRed", 21), ("LightYellow", 24),
       ("Magenta", 7), ("Red", 2), ("White", 9), ("Yellow", 6)]

/-- The library CoolStars, version 1.00. -/
def coolstars1_00 : LibraryDefinition :=
  whole "3f396c63b5930eb678c608016f85bf58" .pro "CoolStars" "V1_00"
      [("CstarsBclear", 45), ("CstarsBdraw", 46), ("CstarsBdraw_I", 47), ("CstarsBdraw_II", 48),
       ("CstarsCalc", 49), ("CstarsCalc_I", 50), ("CstarsCalc_II", 51), ("CstarsClear", 41),
       ("CstarsColour", 40), ("CstarsDraw", 42), ("CstarsDraw_I", 43), ("CstarsDraw_II", 44),
       ("CstarsLimit", 30), ("CstarsLimit_IIII", 31), ("CstarsMakeOrigins", 32),
       ("CstarsOriginOff", 33), ("CstarsReserve", 16), ("CstarsReserve_II", 17),
       ("CstarsSet_III", 18), ("CstarsSet_IIIII", 19), ("CstarsSet_IIIIII", 20),
       ("CstarsSetColour", 23), ("CstarsSetXSpd", 21), ("CstarsSetYSpd", 22), ("CstarsXDir", 38),
       ("CstarsXRev", 24), ("CstarsXRev_I", 25), ("CstarsXRev_II", 26), ("CstarsXSpd", 36),
       ("CstarsXStar", 34), ("CstarsYDir", 39), ("CstarsYRev", 27), ("CstarsYRev_I", 28),
       ("CstarsYRev_II", 29), ("CstarsYSpd", 37), ("CstarsYStar", 35)]

/-- The library DBench, version 0.42. -/
def dbench0_42 : LibraryDefinition :=
  whole "5c4763ee21d35b109e4f272a9628ff04" .pro "DBench" "V0_42"
      [("DbAddress", 4), ("DbClose", 7), ("DbField_I__S", 23), ("DbField_S__I", 24),
       ("DbFieldno", 10), ("DbFlen", 8), ("DbFtype", 14), ("DbGet", 25), ("DbGoto", 26),
       ("DbOpencount", 16), ("DbPut", 27), ("DbReccount", 20), ("DbRecle", 22), ("DbRecno", 21),
       ("DbRecsaved", 13), ("DbSavedOff", 12), ("DbSavedOn", 11), ("DbSel", 5), ("DbSelect", 15),
       ("DbSelectFirst", 18), ("DbSelectNext", 17), ("DbState", 19), ("DbUse", 6)]

/-- The library THX, version 0.6. -/
def thx0_6 : LibraryDefinition :=
  whole "dc22ca6e0e626e06a7044963d6a7fa6c" .pro "THX" "V0_6"
      [("ThxEnd", 7), ("ThxLoad", 4), ("ThxPlay", 2), ("ThxStop", 3), ("ThxSubsongs", 6),
       ("ThxVolume", 5)]

/-- The library Effects, version 0.15. -/
def effects0_15 : LibraryDefinition :=
  whole "896cfbace7e6e3aacc711e49dd260ce1" .pro "Effects" "V0_15"
      [("AgaFadeCmap_I", 8), ("AgaFadeCmap_II", 9), ("BankInterpolateB", 11),
       ("BankInterpolateL", 13), ("BankInterpolateW", 12), ("CreateScreenTable", 2),
       ("StarclearOne", 5), ("StarclearTwo", 7), ("StarfieldBank", 3), ("StarfieldOne", 4),
       ("StarfieldTwo", 6), ("WriteAgaCmap", 10)]

/-- The library Ercole, version 1.70. -/
def ercole1_70 : LibraryDefinition :=
  whole "598f3c52426d00c38399303cfab5c717" .pro "Ercole" "V1_70"
      [("Cli", 3), ("ExtFire", 9), ("ExtJoy", 8), ("LibraryClose", 5), ("LibraryOpen", 4),
       ("Paddle", 6), ("PadFire", 7), ("PropOff", 2), ("PropOn", 1), ("Xfire", 10), ("Yfire", 11)]

/-- The library First, version 0.10. -/
def first0_10 : LibraryDefinition :=
  whole "5ab1de0fd129b344505f134651a2c3ab" .pro "First" "V0_10"
      [("ChangeLed", 3), ("ClearBanks", 6), ("WaitJoy", 5), ("WaitMouse", 4)]

/-- The library Jotre, version 1.00. -/
def jotre1_00 : LibraryDefinition :=
  whole "0128bd165441e7dc3476b33aab15ac2f" .pro "Jotre" "V1_00"
      [("DeinitThx", 5), ("InitThx", 4), ("PlayThx", 6), ("StopThx", 7), ("VolumeThx", 8)]

/-- The library Jotre, another build of version 1.00. -/
def jotre1_00Alt : LibraryDefinition :=
  extending (whole "458bf8c621cd53d696a913e3a3e1bd3b" .pro "Jotre" "V1_00_ALT" []) jotre1_00

/-- The library JVP, version 1.01. -/
def jvp1_01 : LibraryDefinition :=
  whole "7b0f1233dbf051041d8aa9ec256980a5" .pro "JVP" "V1_01"
      [("JvpBinSort", 2), ("JvpBinSortType", 12), ("JvpCstr", 8), ("JvpMsg", 15),
       ("JvpMsg_III", 16), ("JvpMsgBank", 17), ("JvpMsgExists", 14), ("JvpSetMsgBank", 13),
       ("JvpSetStrLen", 3), ("JvpSetStrSep", 4), ("JvpSetStrSep_I", 5),
       ("JvpSetStrSep_IIIIII", 6), ("JvpStr", 7), ("JvpVersion", 11)]

/-- The library Locale, version 0.26. -/
def locale0_26 : LibraryDefinition :=
  whole "1533b53d6fe0018d4a334934c2177609" .pro "Locale" "V0_26"
      [("CatalogActive", 13), ("CatalogString", 7), ("CloseCatalog", 11), ("Date", 21),
       ("Datetime", 23), ("EmitCatalogDescription", 14), ("EmitClose", 15), ("FormatDate", 20),
       ("LocaleActive", 12), ("LocaleCompare_SS", 17), ("LocaleCompare_SSI", 18),
       ("LocaleLower", 2), ("LocaleString", 6), ("LocaleUpper", 3), ("Lowerchar", 4),
       ("OpenCatalog_SS", 9), ("OpenCatalog_SSI", 8), ("ShortDate", 24), ("ShortDatetime", 26),
       ("ShortTime", 25), ("Time", 22), ("Upperchar", 5)]

/-- The library Lserial, version 1.00. -/
def lserial1_00 : LibraryDefinition :=
  whole "cd9a014db36652889319c3599568dedc" .pro "Lserial" "V1_00"
      [("Lcarrier", 10), ("Linkey", 14), ("LserBaud", 12), ("LserBrk", 11), ("LserClose", 2),
       ("LserGet", 9), ("LserMulCheck", 8), ("LserMulSend", 7), ("LserOpen", 1),
       ("LserParams", 15), ("LserQuery", 6), ("LserRead", 4), ("LserSend", 3), ("LserStatus", 16),
       ("Lxpr", 13)]

/-- The library Lserial, another build of version 1.00. -/
def lserial1_00Alt : LibraryDefinition :=
  extending (whole "7abb0e24b19ecc37375a92a1bcfcc0fb" .pro "Lserial" "V1_00_ALT" []) lserial1_00

/-- The library Misc, version 1.00. -/
def misc1_00 : LibraryDefinition :=
  whole "705ae209c25563aa86997a3ee6bfe915" .pro "Misc" "V1_00"
      [("ClearRam", 11), ("DiskWait", 13), ("DisplayOff", 3), ("DisplayOn", 4), ("DledOff", 8),
       ("DledOn", 7), ("Firewait", 12), ("MouseOff", 9), ("MultiOff", 5), ("MultiOn", 6),
       ("PalOn", 14), ("Reset", 10)]

/-- The library P61, version 1.10. -/
def p61_1_10 : LibraryDefinition :=
  whole "bd2ef5bbd17bc80a0ed29573c6b0d1c5" .pro "P61" "V1_10"
      [("P61CiaSpeed", 8), ("P61Continue", 6), ("P61Fade_I", 10), ("P61Fade_II", 11),
       ("P61Pause", 5), ("P61Play_I", 2), ("P61Play_II", 3), ("P61Pos", 12), ("P61Signal", 9),
       ("P61Stop", 4), ("P61Volume", 7)]

/-- The library P61, version 1.20. -/
def p61_1_20 : LibraryDefinition :=
  extending (whole "6e97e9396e27a2716e1e05fecd235beb" .pro "P61" "V1_20" []) p61_1_10

/-- The library TFT, version 0.6. -/
def tft0_6 : LibraryDefinition :=
  whole "1e0403b9b3e49b03d9d2ca7d7a6f7a67" .pro "TFT" "V0_6"
      [("CpuClear", 26), ("CpuClearNtsc", 24), ("CpuClearPal", 25), ("GetHighWord", 6),
       ("GetLowWord", 7), ("GetTimer", 9), ("GetXmouse", 17), ("GetYmouse", 18),
       ("InitBplScroll", 8), ("InitCpuClear", 27), ("InitTimer", 12), ("MfmLuecke", 4),
       ("MfmRead", 3), ("Qsort_III", 20), ("Qsort_IIII", 21), ("SetBpl", 5), ("StartInt", 11),
       ("StartTimer", 13), ("StopInt", 10), ("StopTimer", 14), ("TftError", 19),
       ("TftVersion", 23), ("VarMask", 22)]

/-- The library EME, demo of version 3.00. -/
def eme3_00Demo : LibraryDefinition :=
  { whole "956464c43f7d3a0f1b9031db2382c44c" .creator "EME" "V3_00DEMO"
      [("MedCont", 111), ("MedLoad", 101), ("MedMidiOn", 108), ("MedPlay", 104),
       ("MedPlay_II", 106), ("MedPlay_I", 105), ("MedStop", 103), ("MedTempo", 112),
       ("PattLoopNo", 116), ("PattLoopOf", 114), ("PattLoopOn", 113), ("TrCredits", 119),
       ("TrackSampleOff", 117), ("TrackSampleOn", 118), ("TrackTempo", 97), ("Trlen", 99),
       ("Trpat", 100), ("Trpos", 98), ("Trstat", 115)] with
    same := [("TrackSampleOff", "TrackSampleOn")] }

/-- The library EME, demo of version 3.00. -/
def emePro3_00Demo : LibraryDefinition :=
  { whole "b448154293965887ab6e116e091b12b3" .pro "EME" "V3_00DEMO"
      [("PattLoopNo", 120), ("PattLoopOf", 114), ("PattLoopOn", 113), ("TrackSampleOff", 121),
       ("TrackSampleOn", 122), ("TrackTempo", 116), ("Trlen", 118), ("Trpat", 119),
       ("Trpos", 117), ("Trstat", 115)] with
    same := [("TrackSampleOff", "TrackSampleOn")] }

/-- All known libraries. -/
def all : List LibraryDefinition :=
  [make1_20, make1_30, compactPro2_00, requesterPro2_00, tools1_00, tools1_01, amon1_03, amon1_04,
   serial1_10, serial1_20, agaPro1_00, colours1_00, coolstars1_00, dbench0_42, thx0_6,
   effects0_15, ercole1_70, first0_10, jotre1_00, jotre1_00Alt, jvp1_01, locale0_26, lserial1_00,
   lserial1_00Alt, misc1_00, p61_1_10, p61_1_20, tft0_6, eme3_00Demo, emePro3_00Demo]

end KnownLibraries

/-- The registry of known libraries. -/
def Registry.known : Except Error Registry :=
  Registry.ofDefinitions KnownLibraries.all

end AmigaBinary
