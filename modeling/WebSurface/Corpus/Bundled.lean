import WebSurface.Text
set_option autoImplicit false

namespace WebSurface.Bundled

def block (head : String) (members : List String) (closing : String) : List String :=
  (head ++ " \x7b") :: members.map ("    " ++ ·) ++ [closing]

def interface (head : String) (members : List String) : List String :=
  block ("interface " ++ head) members "\x7d"

def object (name : String) (members : List String) : List String :=
  block ("declare var " ++ name ++ ":") members "\x7d;"

def lines : List String :=
  [
    "/////////////////////////////",
    "/// Window APIs (bundled subset)",
    "/////////////////////////////",
    ""
  ] ++
  interface "AddEventListenerOptions extends EventListenerOptions" [
    "once?: boolean;",
    "passive?: boolean;",
    "signal?: AbortSignal;"
  ] ++
  [""] ++
  interface "EventListenerOptions" [
    "capture?: boolean;"
  ] ++
  [""] ++
  interface "PermissionDescriptor" [
    "name: PermissionName;"
  ] ++
  ["", "/** Options for Geolocation requests. */"] ++
  interface "PositionOptions" [
    "enableHighAccuracy?: boolean;",
    "maximumAge?: number;",
    "timeout?: number;"
  ] ++
  [""] ++
  interface "ShareData" [
    "files?: File[];",
    "text?: string;",
    "title?: string;",
    "url?: string;"
  ] ++
  ["", "/** A file-like object of immutable, raw data. */"] ++
  interface "Blob" [
    "readonly size: number;",
    "readonly type: string;",
    "arrayBuffer(): Promise<ArrayBuffer>;",
    "slice(start?: number, end?: number, contentType?: string): Blob;",
    "text(): Promise<string>;"
  ] ++
  [""] ++
  object "Blob" [
    "prototype: Blob;",
    "new(blobParts?: BlobPart[], options?: BlobPropertyBag): Blob;"
  ] ++
  [""] ++
  interface "Clipboard extends EventTarget" [
    "read(): Promise<ClipboardItems>;",
    "readText(): Promise<string>;",
    "write(data: ClipboardItems): Promise<void>;",
    "writeText(data: string): Promise<void>;"
  ] ++
  [""] ++
  object "Clipboard" [
    "prototype: Clipboard;",
    "new(): Clipboard;"
  ] ++
  [""] ++
  interface "ClipboardItem" [
    "readonly presentationStyle: PresentationStyle;",
    "readonly types: ReadonlyArray<string>;",
    "getType(type: string): Promise<Blob>;"
  ] ++
  ["", "/** An event which takes place in the DOM. */"] ++
  interface "Event" [
    "readonly bubbles: boolean;",
    "readonly cancelable: boolean;",
    "readonly defaultPrevented: boolean;",
    "readonly target: EventTarget | null;",
    "readonly timeStamp: DOMHighResTimeStamp;",
    "readonly type: string;",
    "preventDefault(): void;",
    "stopPropagation(): void;"
  ] ++
  [""] ++
  interface "EventListener" [
    "(evt: Event): void;"
  ] ++
  [""] ++
  interface "EventListenerObject" [
    "handleEvent(object: Event): void;"
  ] ++
  ["", "/** An object that can receive events and may have listeners for them. */"] ++
  interface "EventTarget" [
    "addEventListener(type: string, callback: EventListenerOrEventListenerObject | null, " ++
      "options?: AddEventListenerOptions | boolean): void;",
    "dispatchEvent(event: Event): boolean;",
    "removeEventListener(type: string, callback: EventListenerOrEventListenerObject | null, " ++
      "options?: EventListenerOptions | boolean): void;"
  ] ++
  [""] ++
  object "EventTarget" [
    "prototype: EventTarget;",
    "new(): EventTarget;"
  ] ++
  [""] ++
  interface "File extends Blob" [
    "readonly lastModified: number;",
    "readonly name: string;",
    "readonly webkitRelativePath: string;"
  ] ++
  ["", "/** An object able to obtain the position of the device. */"] ++
  interface "Geolocation" [
    "clearWatch(watchId: number): void;",
    "getCurrentPosition(successCallback: PositionCallback, errorCallback?: " ++
      "PositionErrorCallback | null, options?: PositionOptions): void;",
    "watchPosition(successCallback: PositionCallback, errorCallback?: PositionErrorCallback | " ++
      "null, options?: PositionOptions): number;"
  ] ++
  [""] ++
  object "Geolocation" [
    "prototype: Geolocation;",
    "new(): Geolocation;"
  ] ++
  [""] ++
  interface "GeolocationCoordinates" [
    "readonly accuracy: number;",
    "readonly altitude: number | null;",
    "readonly altitudeAccuracy: number | null;",
    "readonly heading: number | null;",
    "readonly latitude: number;",
    "readonly longitude: number;",
    "readonly speed: number | null;",
    "toJSON(): any;"
  ] ++
  [""] ++
  interface "GeolocationPosition" [
    "readonly coords: GeolocationCoordinates;",
    "readonly timestamp: EpochTimeStamp;",
    "toJSON(): any;"
  ] ++
  [""] ++
  interface "GeolocationPositionError" [
    "readonly code: number;",
    "readonly message: string;",
    "readonly PERMISSION_DENIED: 1;",
    "readonly POSITION_UNAVAILABLE: 2;",
    "readonly TIMEOUT: 3;"
  ] ++
  [""] ++
  interface "MediaQueryList extends EventTarget" [
    "readonly matches: boolean;",
    "readonly media: string;",
    "onchange: ((this: MediaQueryList, ev: MediaQueryListEvent) => any) | null;",
    "addListener(callback: ((this: MediaQueryList, ev: MediaQueryListEvent) => any) | null): void;",
    "removeListener(callback: ((this: MediaQueryList, ev: MediaQueryListEvent) => any) | null): " ++
      "void;"
  ] ++
  [""] ++
  interface "MediaQueryListEvent extends Event" [
    "readonly matches: boolean;",
    "readonly media: string;"
  ] ++
  ["", "/** The state and the identity of the user agent. */"] ++
  interface "Navigator" [
    "readonly clipboard: Clipboard;",
    "readonly cookieEnabled: boolean;",
    "readonly geolocation: Geolocation;",
    "readonly hardwareConcurrency: number;",
    "readonly language: string;",
    "readonly languages: ReadonlyArray<string>;",
    "readonly onLine: boolean;",
    "readonly permissions: Permissions;",
    "readonly userAgent: string;",
    "canShare(data?: ShareData): boolean;",
    "share(data?: ShareData): Promise<void>;",
    "vibrate(pattern: VibratePattern): boolean;"
  ] ++
  [""] ++
  interface "Permissions" [
    "query(permissionDesc: PermissionDescriptor): Promise<PermissionStatus>;"
  ] ++
  [""] ++
  interface "PermissionStatus extends EventTarget" [
    "readonly name: string;",
    "onchange: ((this: PermissionStatus, ev: Event) => any) | null;",
    "readonly state: PermissionState;"
  ] ++
  [""] ++
  interface "PositionCallback" [
    "(position: GeolocationPosition): void;"
  ] ++
  [""] ++
  interface "PositionErrorCallback" [
    "(positionError: GeolocationPositionError): void;"
  ] ++
  ["", "/** Access to a particular domain's session or local storage. */"] ++
  interface "Storage" [
    "/** Returns the number of key/value pairs. */",
    "readonly length: number;",
    "clear(): void;",
    "getItem(key: string): string | null;",
    "key(index: number): string | null;",
    "removeItem(key: string): void;",
    "setItem(key: string, value: string): void;",
    "[name: string]: any;"
  ] ++
  [""] ++
  object "Storage" [
    "prototype: Storage;",
    "new(): Storage;"
  ] ++
  [
    "",
    "declare var navigator: Navigator;",
    "declare var localStorage: Storage;",
    "declare var sessionStorage: Storage;",
    "",
    "declare function matchMedia(query: string): MediaQueryList;",
    "",
    "type BlobPart = BufferSource | Blob | string;",
    "type ClipboardItems = ClipboardItem[];",
    "type EpochTimeStamp = number;",
    "type EventListenerOrEventListenerObject = EventListener | EventListenerObject;",
    "type PermissionName = \"geolocation\" | \"notifications\" | \"persistent-storage\" | " ++
      "\"push\" | \"screen-wake-lock\" | \"xr-spatial-tracking\";",
    "type PermissionState = \"denied\" | \"granted\" | \"prompt\";",
    "type PresentationStyle = \"attachment\" | \"inline\" | \"unspecified\";",
    "type VibratePattern = number | number[];"
  ]

def corpus : Text := lines.flatMap fun l => l.toList ++ ['\n']

end WebSurface.Bundled
